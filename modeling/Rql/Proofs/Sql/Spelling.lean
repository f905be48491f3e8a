import Rql.Proofs.Lists
import Rql.Proofs.Sql.Token
import Rql.Sql.Select

/-!
# The tokens of queries

Every condition and every query has its tokens, with the values in their places. The text that is
rendered reads as these tokens (`lex_render` of conditions and of queries), and the list of values that
goes with the text holds the values of these tokens in the same order (`values_tokens`). So text and list
belong together: `bind` gives the tokens back.

Names of tables and columns may hold anything. That they cannot break out of their quotes is
`spells_quoteName`; here it is used and not looked into.
-/

namespace Rql

/-- The keyword between two conditions. -/
def Conjunction.word : Conjunction → String
  | .and => "AND"
  | .or => "OR"

namespace Sql

variable {α : Type}

theorem values_intercalate {between : List (Token α)} (hb : between.filterMap Token.value? = [])
    (tss : List (List (Token α))) :
    (between.intercalate tss).filterMap Token.value?
      = tss.flatMap (List.filterMap Token.value?) := by
  induction tss with
  | nil => rfl
  | cons ts rest ih =>
    cases rest with
    | nil => rw [List.intercalate_singleton, List.flatMap_cons, List.flatMap_nil, List.append_nil]
    | cons us rest =>
      rw [List.intercalate_cons_cons, List.filterMap_append, List.filterMap_append, hb,
        List.append_nil, ih]
      rfl

/-- Texts that spell tokens do so when they are joined. -/
theorem spells_join {β : Type} {d : Dialect} {sep : String} {between : List (Token Unit)}
    (hsep : SpellsWhole d sep between) (hstop : sep.toList.head?.any isStop = true)
    (f : β → String) (g : β → List (Token Unit)) :
    ∀ bs : List β, (∀ b ∈ bs, Spells d (f b) (g b)) →
      Spells d (Text.join sep (bs.map f)) (between.intercalate (bs.map g)) := by
  intro bs
  induction bs with
  | nil => intro _; exact continues_empty.spells
  | cons b bs ih =>
    intro h
    cases bs with
    | nil =>
      rw [List.map_singleton, List.map_singleton, List.intercalate_singleton]
      exact h b List.mem_cons_self
    | cons b' bs =>
      -- whatever the text ends with, the separator begins with a stop
      have hb := (h b List.mem_cons_self).append_whole hsep hstop
      rw [List.map_cons (f := g), List.map_cons (f := g), List.intercalate_cons_cons]
      exact hb.append (ih fun c hc => h c (List.mem_cons_of_mem b hc))

/-! ## Conditions on a column -/

/-- The keywords of the relation. -/
def Relation.words : Relation → List String
  | .eq => ["="]
  | .ne => ["<>"]
  | .gt => [">"]
  | .ge => [">="]
  | .lt => ["<"]
  | .le => ["<="]
  | .like => ["LIKE"]
  | .notLike => ["NOT", "LIKE"]

/-- An atomic condition: the tokens around its placeholders and the values in their places. -/
abbrev Atom := List (Token Json)

namespace ColumnRef

/-- The tokens of the column. -/
def tokens (c : ColumnRef) : List (Token α) :=
  [.name c.table, .text ".", .name c.column]

/-- The column with keywords behind it. -/
def alone (c : ColumnRef) (words : List String) : Atom :=
  c.tokens ++ words.map .text

/-- The column with keywords and a value behind it. -/
def against (c : ColumnRef) (words : List String) (value : Json) : Atom :=
  c.tokens ++ (words.map .text ++ [.mark value])

/-- The column with keywords and a list of values behind it. -/
def among (c : ColumnRef) (words : List String) (values : List Json) : Atom :=
  c.tokens ++ (words.map .text ++
    (.text "(" :: (List.intercalate [.text ","] (values.map fun value => [.mark value]) ++ [.text ")"])))

theorem spells_render (d : Dialect) (c : ColumnRef) : Spells d (c.render d) c.tokens :=
  spells_qualify d c.table c.column

theorem values_alone (c : ColumnRef) (words : List String) :
    (c.alone words).filterMap Token.value? = [] := by
  rw [List.filterMap_eq_nil_iff]
  intro t ht
  rcases List.mem_append.mp ht with h | h
  · simp only [tokens, List.mem_cons, List.not_mem_nil, or_false] at h
    rcases h with rfl | rfl | rfl <;> rfl
  · obtain ⟨word, _, rfl⟩ := List.mem_map.mp h
    rfl

theorem values_against (c : ColumnRef) (words : List String) (value : Json) :
    (c.against words value).filterMap Token.value? = [value] := by
  have h := c.values_alone words
  rw [alone, List.filterMap_append] at h
  rw [against, List.filterMap_append, List.filterMap_append, ← List.append_assoc, h]
  rfl

theorem values_among (c : ColumnRef) (words : List String) (values : List Json) :
    (c.among words values).filterMap Token.value? = values := by
  have h := c.values_alone words
  rw [alone, List.filterMap_append] at h
  rw [among, List.filterMap_append, List.filterMap_append, ← List.append_assoc, h,
    List.nil_append, List.filterMap_cons]
  simp only [Token.value?]
  rw [List.filterMap_append, values_intercalate rfl, List.flatMap_map]
  have hv : values.flatMap (fun value => [Token.mark value].filterMap Token.value?) = values := by
    induction values with
    | nil => rfl
    | cons value rest ih => rw [List.flatMap_cons, ih]; rfl
  rw [hv]
  exact List.append_nil values

end ColumnRef

namespace Condition

mutual

/-- The tokens of the condition, with its values in their places. -/
def tokens : Condition → List (Token Json)
  | .isNull c => c.alone ["IS", "NULL"]
  | .isNotNull c => c.alone ["IS", "NOT", "NULL"]
  | .test c relation value => c.against relation.words value
  | .isIn c values => c.among ["IN"] values
  | .notIn c values => c.among ["NOT", "IN"] values
  | .group conjunction parts =>
    .text "(" :: (List.intercalate [.text conjunction.word] (tokensOfParts parts) ++ [.text ")"])

/-- The tokens of each of the parts. -/
def tokensOfParts : List Condition → List (List (Token Json))
  | [] => []
  | part :: rest => tokens part :: tokensOfParts rest

end

theorem tokensOfParts_eq_map (parts : List Condition) : tokensOfParts parts = parts.map tokens := by
  induction parts with
  | nil => rfl
  | cons part rest ih => rw [tokensOfParts, ih, List.map_cons]

/-- The text of a group is the texts of its parts with the keyword between them. -/
theorem renderParts_eq_join (d : Dialect) (conjunction : Conjunction) (parts : List Condition) :
    renderParts d conjunction parts = Text.join conjunction.keyword (parts.map (render d)) := by
  induction parts with
  | nil => rfl
  | cons part rest ih =>
    cases rest with
    | nil => rfl
    | cons part' rest =>
      rw [renderParts, ih]
      · rfl
      · exact List.cons_ne_nil part' rest

/-! ## The text reads as the tokens -/

theorem spells_alone {d : Dialect} (c : ColumnRef) {s : String} {words : List String}
    (h : Continues d s (words.map .text)) :
    Spells d (c.render d ++ s) ((c.alone words).map Token.erase) := by
  have := (c.spells_render d).append h
  rw [ColumnRef.alone, List.map_append, List.map_map]
  exact this

/-- Words with a blank in front of each are keywords. -/
theorem continues_words (d : Dialect) {s : String} (words : List String)
    (hs : s.toList = words.flatMap fun word => ' ' :: word.toList)
    (h : ∀ word ∈ words, word.toList ≠ [] ∧ word.toList.all isWordChar = true) :
    Continues d s (words.map .text) := by
  induction words generalizing s with
  | nil =>
    rw [String.toList_eq_nil_iff.mp hs]
    exact continues_empty
  | cons word rest ih =>
    obtain ⟨⟨hne, hall⟩, hrest⟩ := List.forall_mem_cons.mp h
    have hblank : SpellsWhole d " " [] := fun rest => by cases d <;> rfl
    have hbehind := ih (String.toList_ofList (l := rest.flatMap fun word => ' ' :: word.toList)) hrest
    have hcut : s = " " ++ (word ++ .ofList (rest.flatMap fun word => ' ' :: word.toList)) := by
      rw [← String.toList_inj, hs]
      simp
    rw [hcut]
    exact hblank.continues (by decide) ((spells_word d hne hall).append hbehind)

theorem continues_relation (d : Dialect) (relation : Relation) :
    Continues d (" " ++ (relation.symbol ++ " ?")) (relation.words.map .text ++ [.mark ()]) := by
  have h : Spells d (" " ++ (relation.symbol ++ " ?")) (relation.words.map .text ++ [.mark ()]) := by
    intro rest _
    cases relation <;> cases d <;> rfl
  exact h.continues (by rw [String.toList_append]; rfl)

theorem continues_close (d : Dialect) : Continues d ")" [.text ")"] := by
  have h : Spells d ")" [.text ")"] := fun rest _ => by cases d <;> rfl
  exact h.continues (by decide)

theorem spells_placeholders (d : Dialect) (values : List Json) :
    Spells d (placeholders values)
      (.text "(" :: (List.intercalate [.text ","] (values.map fun _ => [.mark ()]) ++ [.text ")"])) := by
  have hopen : SpellsWhole d "(" [.text "("] := fun rest => by cases d <;> rfl
  have hcomma : SpellsWhole d ", " [.text ","] := fun rest => by cases d <;> rfl
  have hmark : Spells d "?" [.mark ()] := fun rest _ => by cases d <;> rfl
  have hjoin := spells_join hcomma (by decide) (fun _ : Json => "?")
    (fun _ => [.mark ()]) values fun _ _ => hmark
  rw [placeholders, String.append_assoc]
  exact hopen.append (hjoin.append (continues_close d))

theorem spells_among {d : Dialect} (c : ColumnRef) {s : String} {words : List String}
    (h : SpellsWhole d s (words.map .text)) (hs : s.toList.head?.any isStop = true)
    (values : List Json) :
    Spells d (c.render d ++ s ++ placeholders values)
      ((c.among words values).map Token.erase) := by
  have := ((c.spells_render d).append_whole h hs).append (spells_placeholders d values)
  rw [ColumnRef.among, List.map_append, List.map_append, List.map_cons, List.map_append,
    map_intercalate, List.map_map, List.map_map, ← List.append_assoc]
  exact this

mutual

/-- **The text of a condition reads as its tokens.** -/
theorem spells_render (d : Dialect) : (c : Condition) →
    Spells d (c.render d) (c.tokens.map Token.erase)
  | .isNull c => spells_alone c (continues_words d ["IS", "NULL"] rfl (by decide))
  | .isNotNull c => spells_alone c (continues_words d ["IS", "NOT", "NULL"] rfl (by decide))
  | .test c relation value => by
      have := (c.spells_render d).append (continues_relation d relation)
      rw [render, tokens, ColumnRef.against, List.map_append, List.map_append, List.map_map,
        String.append_assoc, String.append_assoc]
      exact this
  | .isIn c values => by
      have h : SpellsWhole d " IN " [.text "IN"] := fun rest => by cases d <;> rfl
      exact spells_among c h (by decide) values
  | .notIn c values => by
      have h : SpellsWhole d " NOT IN " [.text "NOT", .text "IN"] :=
        fun rest => by cases d <;> rfl
      exact spells_among c h (by decide) values
  | .group conjunction parts => by
      have hopen : SpellsWhole d "(" [.text "("] := fun rest => by cases d <;> rfl
      have hword : SpellsWhole d conjunction.keyword [.text conjunction.word] := by
        intro rest
        cases conjunction <;> cases d <;> rfl
      have hstop : conjunction.keyword.toList.head?.any isStop = true := by
        cases conjunction <;> decide
      have hjoin := spells_join hword hstop (render d) (fun part => part.tokens.map Token.erase)
        parts (spells_render_of_mem d parts)
      have := hopen.append (hjoin.append (continues_close d))
      rw [render, tokens, renderParts_eq_join, tokensOfParts_eq_map, List.map_cons,
        List.map_append, map_intercalate, List.map_map, String.append_assoc]
      exact this

theorem spells_render_of_mem (d : Dialect) : (parts : List Condition) →
    ∀ part ∈ parts, Spells d (part.render d) (part.tokens.map Token.erase)
  | [], _, h => absurd h List.not_mem_nil
  | part :: rest, part', h => by
      rcases List.mem_cons.mp h with heq | hmem
      · rw [heq]; exact spells_render d part
      · exact spells_render_of_mem d rest part' hmem

end

theorem lex_render (d : Dialect) (c : Condition) :
    lex d (c.render d) = c.tokens.map Token.erase :=
  (spells_render d c).lex

/-! ## The list of values is that of the tokens -/

mutual

/-- **The values of a condition are those of its tokens**, in the same order. -/
theorem values_tokens : (c : Condition) → c.tokens.filterMap Token.value? = c.params
  | .isNull c => c.values_alone _
  | .isNotNull c => c.values_alone _
  | .test c relation value => c.values_against relation.words value
  | .isIn c values => c.values_among _ values
  | .notIn c values => c.values_among _ values
  | .group conjunction parts => by
      rw [tokens, params, ← values_tokensOfParts parts, List.filterMap_cons]
      simp only [Token.value?]
      rw [List.filterMap_append, values_intercalate rfl]
      exact List.append_nil _

theorem values_tokensOfParts : (parts : List Condition) →
    (tokensOfParts parts).flatMap (List.filterMap Token.value?) = paramsOfParts parts
  | [] => rfl
  | part :: rest => by
      rw [tokensOfParts, List.flatMap_cons, values_tokens part, values_tokensOfParts rest,
        paramsOfParts]

end

/-- Text and values of a condition together are its tokens. -/
theorem bind_render (d : Dialect) (c : Condition) :
    Token.bind (lex d (c.render d)) c.params = some c.tokens := by
  rw [lex_render, ← values_tokens, Token.bind_erase]

end Condition

/-! ## Whole queries -/

namespace Select

/-- The tokens of what the rows are taken from. -/
def tableTokens (q : Select) : List (Token Json) :=
  [.text "SELECT", .name q.table, .text ".", .text "*", .text "FROM", .name q.table]

/-- The tokens of the filter with its keyword. -/
def whereTokens (q : Select) : List (Token Json) :=
  match q.filter with
  | none => []
  | some c => .text "WHERE" :: c.tokens

/-- The tokens of one entry of the order. -/
def entryTokens (entry : ColumnRef × Direction) : List (Token Json) :=
  entry.1.alone [entry.2.keyword]

/-- The tokens of the order with its keywords. -/
def orderTokens (q : Select) : List (Token Json) :=
  if q.order.isEmpty then []
  else .text "ORDER" :: .text "BY" :: List.intercalate [.text ","] (q.order.map entryTokens)

/-- The tokens of the page. -/
def pageTokens (q : Select) : List (Token Json) :=
  [.text "LIMIT", .text (toString q.limit)]
    ++ (if q.offset = 0 then [] else [.text "OFFSET", .text (toString q.offset)])

/-- The tokens of the query, with its values in their places. -/
def tokens (q : Select) : List (Token Json) :=
  q.tableTokens ++ (q.whereTokens ++ (q.orderTokens ++ q.pageTokens))

theorem spells_table (d : Dialect) (q : Select) :
    Spells d ("SELECT " ++ d.quoteName q.table ++ ".* FROM " ++ d.quoteName q.table)
      (q.tableTokens.map Token.erase) := by
  have hselect : SpellsWhole d "SELECT " [.text "SELECT"] := fun rest => by cases d <;> rfl
  have hfrom : SpellsWhole d ".* FROM " [.text ".", .text "*", .text "FROM"] :=
    fun rest => by cases d <;> rfl
  have hname := spells_quoteName d q.table
  exact ((hselect.append hname).append_whole hfrom (by decide)).append hname

theorem continues_where (d : Dialect) (q : Select) :
    Continues d (if q.filter.isSome then " WHERE " ++ q.renderFilter d else "")
      (q.whereTokens.map Token.erase) := by
  rw [renderFilter, whereTokens]
  cases q.filter with
  | none => exact continues_empty
  | some c =>
    have h : SpellsWhole d " WHERE " [.text "WHERE"] := fun rest => by cases d <;> rfl
    exact h.continues (by decide) (c.spells_render d)

theorem spells_renderOrder (d : Dialect) (entry : ColumnRef × Direction) :
    Spells d (renderOrder d entry) ((entryTokens entry).map Token.erase) := by
  have hblank : SpellsWhole d " " [] := fun rest => by cases d <;> rfl
  have hword : Spells d entry.2.keyword [.text entry.2.keyword] :=
    spells_word d (by cases entry.2 <;> exact List.cons_ne_nil _ _) (by cases entry.2 <;> rfl)
  rw [renderOrder, String.append_assoc]
  exact Condition.spells_alone entry.1 (hblank.continues (by decide) hword)

theorem continues_orderBy (d : Dialect) (q : Select) :
    Continues d (if q.order.isEmpty then "" else
        " ORDER BY " ++ Text.join ", " (q.order.map (renderOrder d)))
      (q.orderTokens.map Token.erase) := by
  rw [orderTokens]
  by_cases he : q.order.isEmpty = true
  · rw [if_pos he, if_pos he]
    exact continues_empty
  · rw [if_neg he, if_neg he]
    have h : SpellsWhole d " ORDER BY " [.text "ORDER", .text "BY"] :=
      fun rest => by cases d <;> rfl
    have hcomma : SpellsWhole d ", " [.text ","] := fun rest => by cases d <;> rfl
    have hjoin := spells_join hcomma (by decide) (renderOrder d)
      (fun entry => (entryTokens entry).map Token.erase) q.order
      fun entry _ => spells_renderOrder d entry
    rw [List.map_cons, List.map_cons, map_intercalate, List.map_map]
    exact h.continues (by decide) hjoin

theorem continues_limit (d : Dialect) (n : Nat) :
    Continues d (" LIMIT " ++ toString n) [.text "LIMIT", .text (toString n)] := by
  have h : SpellsWhole d " LIMIT " [.text "LIMIT"] := fun rest => by cases d <;> rfl
  exact h.continues (by decide) (spells_number d n)

theorem continues_offset (d : Dialect) (n : Nat) :
    Continues d (if n = 0 then "" else " OFFSET " ++ toString n)
      ((if n = 0 then [] else [.text (α := Json) "OFFSET", .text (toString n)]).map
        Token.erase) := by
  by_cases hn : n = 0
  · rw [if_pos hn, if_pos hn]
    exact continues_empty
  · rw [if_neg hn, if_neg hn]
    have h : SpellsWhole d " OFFSET " [.text "OFFSET"] := fun rest => by cases d <;> rfl
    exact h.continues (by decide) (spells_number d n)

/-- **The text of a query reads as its tokens.** -/
theorem lex_render (d : Dialect) (q : Select) : lex d (q.render d) = q.tokens.map Token.erase := by
  have h := ((((spells_table d q).append (continues_where d q)).append
    (continues_orderBy d q)).append (continues_limit d q.limit)).append (continues_offset d q.offset)
  rw [← String.append_assoc] at h
  unfold render tokens pageTokens
  rw [List.map_append, List.map_append, List.map_append, List.map_append, ← List.append_assoc,
    ← List.append_assoc, ← List.append_assoc]
  exact h.lex

theorem values_orderTokens (q : Select) : q.orderTokens.filterMap Token.value? = [] := by
  rw [orderTokens]
  by_cases he : q.order.isEmpty = true
  · rw [if_pos he]; rfl
  · rw [if_neg he]
    show (List.intercalate [.text ","] (q.order.map entryTokens)).filterMap Token.value? = []
    rw [values_intercalate rfl, List.flatMap_map, List.flatMap_eq_nil_iff]
    intro entry _
    exact entry.1.values_alone _

theorem values_pageTokens (q : Select) : q.pageTokens.filterMap Token.value? = [] := by
  rw [pageTokens]
  by_cases hn : q.offset = 0
  · rw [if_pos hn]; rfl
  · rw [if_neg hn]; rfl

/-- **The values of a query are those of its tokens**, in the same order. -/
theorem values_tokens (q : Select) : q.tokens.filterMap Token.value? = q.params := by
  have hwhere : q.whereTokens.filterMap Token.value? = q.params := by
    rw [whereTokens, params]
    cases q.filter with
    | none => rfl
    | some c => exact c.values_tokens
  rw [tokens, List.filterMap_append, List.filterMap_append, List.filterMap_append, hwhere,
    values_orderTokens, values_pageTokens, List.append_nil]
  exact List.append_nil q.params

/-- Text and values of a query together are its tokens. -/
theorem bind_render (d : Dialect) (q : Select) :
    Token.bind (lex d (q.render d)) q.params = some q.tokens := by
  rw [lex_render, ← values_tokens, Token.bind_erase]

end Select

end Sql

end Rql
