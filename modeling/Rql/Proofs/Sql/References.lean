import Rql.Proofs.Sql.Spelling
import Rql.Proofs.Sql.Steps

/-!
# Columns that a query refers to

Among the tokens of a query a column is a name, a dot and a name. `columnRefs` reads these off, and
`Refers` says of which columns a stretch of tokens is made.

The fields of a statement are looked up among the columns of the table, and the query names the columns as
they are declared. The keys behind the order are not looked up. They are columns if some column is marked
as part of the key; otherwise they come from the primary index as they are, which nothing compares with the
columns. `columnRefs_ofStatement` says so, and that this is the only way for a query to refer to something
that is no column of its table.
-/

namespace Rql

/-- The fields that a statement names, in its comparisons and in its order. -/
def Statement.fields (s : Statement) : List String :=
  s.comparisons.map Comparison.field ++ s.order.map Order.field

namespace Sql

variable {α : Type}

/-! ## Reading columns off tokens -/

/-- The columns among the tokens: a name, a dot and a name. -/
def columnRefs : List (Token α) → List ColumnRef
  | .name table :: .text "." :: .name column :: rest => ⟨table, column⟩ :: columnRefs rest
  | _ :: rest => columnRefs rest
  | [] => []

/-- A name with a word behind it is no column. -/
theorem columnRefs_name_text (ident : String) {w : String} (hw : w ≠ ".") (ts : List (Token α)) :
    columnRefs (.name ident :: .text w :: ts) = columnRefs ts := by
  rw [columnRefs]
  · rfl
  · intro table column rest _ h
    exact hw (Token.text.inj (List.cons.inj h).1)

/-- The words and signs of conditions and of orders. -/
def innerWords : List String :=
  ["IS", "NOT", "NULL", "IN", "LIKE", "=", "<>", ">", ">=", "<", "<=", "AND", "OR", "(", ")", ",",
    ".", "ASC", "DESC"]

/-- The tokens are these columns, with words and placeholders before, between and behind them. -/
inductive Refers : List ColumnRef → List (Token α) → Prop
  | nil : Refers [] []
  | column {cs : List ColumnRef} {ts : List (Token α)} (c : ColumnRef) (h : Refers cs ts) :
      Refers (c :: cs) (c.tokens ++ ts)
  | word {cs : List ColumnRef} {ts : List (Token α)} {w : String} (hw : w ∈ innerWords)
      (h : Refers cs ts) : Refers cs (.text w :: ts)
  | mark {cs : List ColumnRef} {ts : List (Token α)} (value : α) (h : Refers cs ts) :
      Refers cs (.mark value :: ts)

namespace Refers

variable {cs cs' : List ColumnRef} {ts ts' : List (Token α)}

theorem append (h : Refers cs ts) (h' : Refers cs' ts') : Refers (cs ++ cs') (ts ++ ts') := by
  induction h with
  | nil => exact h'
  | column c _ ih => exact .column c ih
  | word hw _ ih => exact .word hw ih
  | mark value _ ih => exact .mark value ih

theorem words {ws : List String} (hws : ∀ w ∈ ws, w ∈ innerWords) (h : Refers cs ts) :
    Refers cs (ws.map .text ++ ts) := by
  induction ws with
  | nil => exact h
  | cons w ws ih =>
    exact .word (hws w List.mem_cons_self) (ih fun w' hw' => hws w' (List.mem_cons_of_mem w hw'))

/-- Stretches with a word between them. -/
theorem intercalate {β : Type} {w : String} (hw : w ∈ innerWords) {f : β → List (Token α)}
    {g : β → List ColumnRef} : ∀ bs : List β, (∀ b ∈ bs, Refers (g b) (f b)) →
      Refers (bs.flatMap g) (List.intercalate [.text w] (bs.map f)) := by
  intro bs
  induction bs with
  | nil => intro _; exact .nil
  | cons b bs ih =>
    intro h
    have hb := h b List.mem_cons_self
    cases bs with
    | nil =>
      rw [List.flatMap_singleton, List.map_singleton, List.intercalate_singleton]
      exact hb
    | cons b' bs =>
      have hrest := ih fun c hc => h c (List.mem_cons_of_mem b hc)
      rw [List.flatMap_cons, List.map_cons, List.map_cons, List.intercalate_cons_cons,
        List.append_assoc]
      exact hb.append (.word hw hrest)

/-- Values do not matter. -/
theorem erase (h : Refers cs ts) : Refers cs (ts.map Token.erase) := by
  induction h with
  | nil => exact .nil
  | column c _ ih => exact .column c ih
  | word hw _ ih => exact .word hw ih
  | mark _ _ ih => exact .mark () ih

theorem columnRefs_append (h : Refers cs ts) (ts' : List (Token α)) :
    columnRefs (ts ++ ts') = cs ++ columnRefs ts' := by
  induction h with
  | nil => rfl
  | column c _ ih => exact congrArg (c :: ·) ih
  | word _ _ ih => exact ih
  | mark _ _ ih => exact ih

/-- No other words stand among the tokens. -/
theorem text_not_mem (h : Refers cs ts) {w : String} (hw : w ∉ innerWords) :
    Token.text w ∉ ts := by
  induction h with
  | nil => exact List.not_mem_nil
  | @column cs ts c _ ih =>
    intro hmem
    rcases List.mem_append.mp hmem with hc | hts
    · have hdot : w = "." := by simpa [ColumnRef.tokens] using hc
      exact hw (hdot ▸ by decide)
    · exact ih hts
  | word hw' _ ih =>
    intro hmem
    rcases List.mem_cons.mp hmem with heq | hts
    · exact hw (Token.text.inj heq ▸ hw')
    · exact ih hts
  | mark _ _ ih =>
    intro hmem
    rcases List.mem_cons.mp hmem with heq | hts
    · exact absurd heq (by simp)
    · exact ih hts

end Refers

/-! ## Columns of conditions -/

namespace Condition

mutual

/-- The columns of a condition from left to right. -/
def columns : Condition → List ColumnRef
  | .isNull c | .isNotNull c | .test c .. | .isIn c _ | .notIn c _ => [c]
  | .group _ parts => columnsOfParts parts

/-- The columns of the parts from left to right. -/
def columnsOfParts : List Condition → List ColumnRef
  | [] => []
  | part :: rest => columns part ++ columnsOfParts rest

end

theorem columnsOfParts_eq_flatMap (parts : List Condition) :
    columnsOfParts parts = parts.flatMap columns := by
  induction parts with
  | nil => rfl
  | cons part rest ih => rw [columnsOfParts, ih, List.flatMap_cons]

theorem refers_alone (c : ColumnRef) {words : List String} (h : ∀ w ∈ words, w ∈ innerWords) :
    Refers [c] (c.alone words) := by
  have hwords := Refers.words (α := Json) h .nil
  rw [List.append_nil] at hwords
  exact .column c hwords

theorem refers_among (c : ColumnRef) {words : List String} (h : ∀ w ∈ words, w ∈ innerWords)
    (values : List Json) : Refers [c] (c.among words values) := by
  -- the placeholders hold no column, however many there are
  have hmarks : Refers [] (List.intercalate [Token.text ","] (values.map fun value => [.mark value])) := by
    have hjoin := Refers.intercalate (w := ",") (by decide) (f := fun value : Json => [.mark value])
      (g := fun _ => []) values fun value _ => .mark value .nil
    rwa [List.flatMap_eq_nil_iff.mpr fun _ _ => rfl] at hjoin
  have hlist := hmarks.append (.word (w := ")") (by decide) .nil)
  exact .column c (.words h (.word (w := "(") (by decide) hlist))

mutual

/-- **The columns among the tokens are those of the condition.** -/
theorem refers_tokens : (c : Condition) → Refers c.columns c.tokens
  | .isNull c => refers_alone c (by decide)
  | .isNotNull c => refers_alone c (by decide)
  | .test c relation value => .column c (.words (by cases relation <;> decide) (.mark value .nil))
  | .isIn c values => refers_among c (by decide) values
  | .notIn c values => refers_among c (by decide) values
  | .group conjunction parts => by
      have hword : conjunction.word ∈ innerWords := by cases conjunction <;> decide
      have hjoin := Refers.intercalate hword parts (refers_tokens_of_mem parts)
      have hclose := hjoin.append (.word (w := ")") (by decide) .nil)
      rw [List.append_nil] at hclose
      rw [columns, columnsOfParts_eq_flatMap, tokens, tokensOfParts_eq_map]
      exact .word (by decide) hclose

theorem refers_tokens_of_mem : (parts : List Condition) →
    ∀ part ∈ parts, Refers part.columns part.tokens
  | [], _, h => absurd h List.not_mem_nil
  | part :: rest, part', h => by
      rcases List.mem_cons.mp h with heq | hmem
      · rw [heq]; exact refers_tokens part
      · exact refers_tokens_of_mem rest part' hmem

end

end Condition

/-! ## Fields and their columns -/

variable {glyph : Char} {t : Table}

/-- The reference is to the first column that has the name of the field, as it is declared. -/
def NamedBy (t : Table) (field : String) (r : ColumnRef) : Prop :=
  ∃ c, t.column? field = some c ∧ r = ⟨t.name, c.name⟩

theorem namedBy_of_column {field : String} {r : ColumnRef} (h : column t field = .ok r) :
    NamedBy t field r := by
  unfold column at h
  split at h
  · next c hc => exact ⟨c, hc, (Except.ok.inj h).symm⟩
  · exact absurd h (by simp)

namespace Condition

theorem columnsOfParts_patterns {col r : ColumnRef} {relation : Relation} {before after : String}
    {values : List Literal} (h : r ∈ columnsOfParts (patterns col relation before after values)) :
    r = col := by
  rw [columnsOfParts_eq_flatMap, patterns, List.flatMap_map] at h
  obtain ⟨l, -, hr⟩ := List.mem_flatMap.mp h
  exact List.mem_singleton.mp hr

theorem columns_combine (conjunction : Conjunction) (parts : List Condition) :
    (combine conjunction parts).columns = columnsOfParts parts := by
  rcases combine_cases conjunction parts with ⟨part, rfl⟩ | hgroup
  · exact (List.append_nil _).symm
  · rw [hgroup, columns]

theorem columns_equality (glyph : Char) (col : ColumnRef) (equal : Bool) (l : Literal) :
    (equality glyph col equal l).columns = [col] := by
  rcases equality_cases glyph col equal l with h | h | ⟨relation, value, h⟩ <;> rw [h] <;> rfl

/-- The condition of a comparison is about one column. -/
theorem columns_ofColumn {col r : ColumnRef} {c : Comparison} {cond : Condition}
    (h : ofColumn glyph col c = .ok cond) (hr : r ∈ cond.columns) : r = col := by
  obtain ⟨op, field, values⟩ := c
  cases op with
  | eq | ne =>
    obtain ⟨l, -, rfl⟩ := map_ok h
    rw [columns_equality] at hr
    exact List.mem_singleton.mp hr
  | gt | ge | lt | le =>
    obtain ⟨l, -, rfl⟩ := map_ok h
    exact List.mem_singleton.mp hr
  | isIn | out | n | nn =>
    cases h
    exact List.mem_singleton.mp hr
  | sw | ew | w | wo =>
    cases h
    rw [columns_combine] at hr
    exact columnsOfParts_patterns hr
  | emp | nemp =>
    cases h
    rcases List.mem_cons.mp hr with rfl | hr
    · rfl
    · exact List.mem_singleton.mp hr
  | search => exact absurd h (by simp [ofColumn])

mutual

theorem columns_ofPredicate : (p : Predicate) → {cond : Condition} →
    ofPredicate glyph t p = .ok cond →
      ∀ r ∈ cond.columns, ∃ c ∈ p.comparisons, NamedBy t c.field r
  | .compare c, cond, h => by
      intro r hr
      rw [ofPredicate, ofComparison_eq] at h
      obtain ⟨col, hcol, hcond⟩ := bind_ok h
      refine ⟨c, List.mem_cons_self, ?_⟩
      rw [columns_ofColumn hcond hr]
      exact namedBy_of_column hcol
  | .group _ members, _, h => by
      obtain ⟨parts, hparts, rfl⟩ := (compiles glyph t).group_ok h
      exact columns_ofPredicates members hparts

/-- **Every column of a condition is that of one of its comparisons.** -/
theorem columns_ofPredicates : (ps : List Predicate) → {parts : List Condition} →
    ofPredicates glyph t ps = .ok parts →
      ∀ r ∈ columnsOfParts parts, ∃ c ∈ Predicate.comparisonsOfMembers ps, NamedBy t c.field r
  | [], _, h => by
      cases h
      exact fun r hr => absurd hr List.not_mem_nil
  | p :: ps, _, h => by
      obtain ⟨part, rest, hpart, hrest, rfl⟩ := (compiles glyph t).cons_ok h
      intro r hr
      rcases List.mem_append.mp hr with hr | hr
      · obtain ⟨c, hc, hnamed⟩ := columns_ofPredicate p hpart r hr
        exact ⟨c, List.mem_append_left _ hc, hnamed⟩
      · obtain ⟨c, hc, hnamed⟩ := columns_ofPredicates ps hrest r hr
        exact ⟨c, List.mem_append_right _ hc, hnamed⟩

end

end Condition

/-! ## Columns of queries -/

namespace Select

variable {s : Statement} {q : Select}

/-- The columns of the filter. -/
def filterColumns (q : Select) : List ColumnRef :=
  (q.filter.map Condition.columns).getD []

theorem refers_entries (entries : List (ColumnRef × Direction)) :
    Refers (entries.map Prod.fst) (List.intercalate [.text ","] (entries.map entryTokens)) := by
  have hentry : ∀ entry : ColumnRef × Direction, Refers [entry.1] (entryTokens entry) := fun entry =>
    Condition.refers_alone entry.1 (by cases entry.2 <;> decide)
  rw [List.map_eq_flatMap]
  exact Refers.intercalate (by decide) entries fun entry _ => hentry entry

theorem columnRefs_page (q : Select) : columnRefs (q.pageTokens.map Token.erase) = [] := by
  rw [pageTokens]
  split <;> rfl

theorem columnRefs_order (q : Select) (ts : List (Token Unit)) :
    columnRefs (q.orderTokens.map Token.erase ++ ts) = q.order.map Prod.fst ++ columnRefs ts := by
  rw [orderTokens]
  by_cases he : q.order.isEmpty = true
  · rw [if_pos he, List.isEmpty_iff.mp he]
    rfl
  · rw [if_neg he]
    exact (refers_entries q.order).erase.columnRefs_append ts

theorem columnRefs_where (q : Select) (ts : List (Token Unit)) :
    columnRefs (q.whereTokens.map Token.erase ++ ts) = q.filterColumns ++ columnRefs ts := by
  rw [whereTokens, filterColumns]
  cases q.filter with
  | none => rfl
  | some c => exact c.refers_tokens.erase.columnRefs_append ts

/-- Behind the name of the table there is a word. -/
theorem exists_behind_table (q : Select) : ∃ w ts, w ≠ "."
    ∧ (q.whereTokens ++ (q.orderTokens ++ q.pageTokens)).map Token.erase = .text w :: ts := by
  rw [whereTokens]
  cases q.filter with
  | some c => exact ⟨"WHERE", _, by decide, rfl⟩
  | none =>
    rw [orderTokens]
    by_cases he : q.order.isEmpty = true
    · rw [if_pos he]
      exact ⟨"LIMIT", _, by decide, rfl⟩
    · rw [if_neg he]
      exact ⟨"ORDER", _, by decide, rfl⟩

/-- **The columns that a query refers to are those of its filter and those of its order.** -/
theorem columnRefs_lex (d : Dialect) (q : Select) :
    columnRefs (lex d (q.render d)) = q.filterColumns ++ q.order.map Prod.fst := by
  -- the table itself is named twice, each time with something else than a column behind it
  have htable : columnRefs (q.tokens.map Token.erase)
      = columnRefs ((q.whereTokens ++ (q.orderTokens ++ q.pageTokens)).map Token.erase) := by
    obtain ⟨w, ts, hw, hts⟩ := q.exists_behind_table
    rw [tokens, List.map_append, hts]
    exact columnRefs_name_text q.table hw ts
  rw [lex_render, htable, List.map_append, List.map_append, columnRefs_where, columnRefs_order,
    columnRefs_page, List.append_nil]

theorem filterColumns_ofStatement {filter : Option Condition}
    (h : Condition.ofStatement glyph t s = .ok filter) :
    ∀ r ∈ (filter.map Condition.columns).getD [], ∃ c ∈ s.comparisons, NamedBy t c.field r := by
  obtain ⟨parts, hparts, ⟨-, rfl⟩ | ⟨-, rfl⟩⟩ := Condition.ofStatement_ok h
  · exact fun r hr => absurd hr List.not_mem_nil
  · intro r hr
    rw [Option.map_some, Option.getD_some, Condition.columns_combine] at hr
    exact Condition.columns_ofPredicates s.predicates hparts r hr

theorem namedBy_of_mem_requested {requested : List (ColumnRef × Direction)}
    (h : requestedOrder t s.order = .ok requested) :
    ∀ r ∈ requested.map Prod.fst, ∃ o ∈ s.order, NamedBy t o.field r := by
  intro r hr
  obtain ⟨entry, hentry, rfl⟩ := List.mem_map.mp hr
  obtain ⟨o, ho, hcolumn⟩ := exists_of_mem_mapM h hentry
  obtain ⟨col, hcol, rfl⟩ := map_ok hcolumn
  exact ⟨o, ho, namedBy_of_column hcol⟩

end Select

/-- The key columns that no order names, whatever the case of the letters. -/
def freeKeys (t : Table) (orders : List Order) : List String :=
  t.keyColumns.filter fun key => !orders.any fun o => Text.sameName o.field key

theorem Select.map_fst_keyOrder (t : Table) (orders : List Order) :
    (keyOrder t orders).map Prod.fst = (freeKeys t orders).map fun key => ⟨t.name, key⟩ := by
  rw [keyOrder, List.map_map]
  rfl

/-- The keys that are left behind the order are the only columns that no field names. -/
theorem Select.exists_named {s : Statement} {q : Select} (d : Dialect)
    (h : Select.ofStatement glyph t s = .ok q) :
    ∃ named, columnRefs (lex d (q.render d))
        = named ++ (freeKeys t s.order).map (fun key => ⟨t.name, key⟩)
      ∧ ∀ r ∈ named, ∃ field ∈ s.fields, NamedBy t field r := by
  obtain ⟨filter, requested, hfilter, horder, rfl⟩ := Select.ofStatement_ok h
  refine ⟨(filter.map Condition.columns).getD [] ++ requested.map Prod.fst, ?_, ?_⟩
  · rw [columnRefs_lex, List.map_append, map_fst_keyOrder, ← List.append_assoc]
    rfl
  · intro r hr
    rcases List.mem_append.mp hr with hr | hr
    · obtain ⟨c, hc, hnamed⟩ := filterColumns_ofStatement hfilter r hr
      exact ⟨c.field, List.mem_append_left _ (List.mem_map_of_mem hc), hnamed⟩
    · obtain ⟨o, ho, hnamed⟩ := namedBy_of_mem_requested horder r hr
      exact ⟨o.field, List.mem_append_right _ (List.mem_map_of_mem ho), hnamed⟩

/-! ## Declared columns -/

/-- The reference is to a column of the table, by its name as it is declared. -/
def Declared (t : Table) (r : ColumnRef) : Prop :=
  ∃ c ∈ t.columns, r = ⟨t.name, c.name⟩

theorem NamedBy.declared {field : String} {r : ColumnRef} (h : NamedBy t field r) : Declared t r := by
  obtain ⟨c, hc, rfl⟩ := h
  exact ⟨c, List.mem_of_find?_eq_some hc, rfl⟩

/-- Where columns are marked as keys, the keys are columns. -/
theorem declared_of_marked (hmarked : ∃ c ∈ t.columns, c.isKey = true) {key : String}
    (hkey : key ∈ t.keyColumns) : Declared t ⟨t.name, key⟩ := by
  unfold Table.keyColumns at hkey
  split at hkey
  · next hnil =>
    -- the list of the marked columns is not empty
    obtain ⟨c, hc, hmark⟩ := hmarked
    have hmem : c ∈ t.columns.filter Column.isKey := List.mem_filter.mpr ⟨hc, hmark⟩
    rw [List.map_eq_nil_iff.mp hnil] at hmem
    exact absurd hmem List.not_mem_nil
  · obtain ⟨c, hc, rfl⟩ := List.mem_map.mp hkey
    exact ⟨c, (List.mem_filter.mp hc).1, rfl⟩

/-- **Columns of a query.** What a query refers to are first the columns that the fields of the statement
name, as they are declared, and then the keys that no order names. So all of it is declared if and only if
these keys are, and they are if any column is marked as part of the key. -/
theorem columnRefs_ofStatement {d : Dialect} {s : Statement} {q : Query}
    (h : Query.ofStatement d glyph t s = .ok q) :
    (∃ named, columnRefs (lex d q.sql)
        = named ++ (freeKeys t s.order).map (fun key => ⟨t.name, key⟩)
      ∧ ∀ r ∈ named, Declared t r ∧ ∃ field ∈ s.fields, NamedBy t field r)
    ∧ ((∀ r ∈ columnRefs (lex d q.sql), Declared t r)
      ↔ ∀ key ∈ freeKeys t s.order, Declared t ⟨t.name, key⟩)
    ∧ ((∃ c ∈ t.columns, c.isKey = true) → ∀ r ∈ columnRefs (lex d q.sql), Declared t r) := by
  obtain ⟨select, hselect, rfl⟩ := map_ok h
  obtain ⟨named, hrefs, hnamed⟩ := Select.exists_named d hselect
  have hdeclared : ∀ r ∈ named, Declared t r := by
    intro r hr
    obtain ⟨field, -, hfield⟩ := hnamed r hr
    exact hfield.declared
  have hiff : (∀ r ∈ columnRefs (lex d (select.render d)), Declared t r)
      ↔ ∀ key ∈ freeKeys t s.order, Declared t ⟨t.name, key⟩ := by
    rw [hrefs, List.forall_mem_append, List.forall_mem_map]
    exact and_iff_right hdeclared
  refine ⟨⟨named, hrefs, fun r hr => ⟨hdeclared r hr, hnamed r hr⟩⟩, hiff, fun hmarked => ?_⟩
  exact hiff.mpr fun key hkey => declared_of_marked hmarked (List.mem_filter.mp hkey).1

/-- A table whose primary index has its key in small letters, and whose column has not. -/
def parcels : Table where
  name := "parcels"
  backend := .sql .ansi
  columns := [{ name := "Code" }]
  indexes := [.ofPrimaryKeys "code" none]

/-- A filter on the column by another spelling. -/
def byCode : Statement where
  table := "parcels"
  predicates := [.compare ⟨.emp, "CODE", []⟩]

theorem columnRefs_byCode : ∃ q, Query.ofStatement .ansi '*' parcels byCode = .ok q
    ∧ columnRefs (lex .ansi q.sql)
      = [⟨"parcels", "Code"⟩, ⟨"parcels", "Code"⟩, ⟨"parcels", "code"⟩] := by
  have hrefs : (Query.ofStatement .ansi '*' parcels byCode).toOption.map
      (fun q => columnRefs (lex .ansi q.sql))
      = some [⟨"parcels", "Code"⟩, ⟨"parcels", "Code"⟩, ⟨"parcels", "code"⟩] := by decide +kernel
  obtain ⟨q, hq, hcolumns⟩ := Option.map_eq_some_iff.mp hrefs
  exact ⟨q, ok_of_toOption hq, hcolumns⟩

/-- The filter names the column as it is declared, the order does not. -/
theorem undeclared_byCode : ∃ q, Query.ofStatement .ansi '*' parcels byCode = .ok q
    ∧ (∃ named, columnRefs (lex .ansi q.sql) = named ++ [⟨"parcels", "code"⟩]
      ∧ ∀ r ∈ named, Declared parcels r)
    ∧ ((∀ r ∈ columnRefs (lex .ansi q.sql), Declared parcels r)
      ↔ Declared parcels ⟨"parcels", "code"⟩) := by
  obtain ⟨q, hq, -⟩ := columnRefs_byCode
  obtain ⟨⟨named, hrefs, hnamed⟩, hiff, -⟩ := columnRefs_ofStatement hq
  refine ⟨q, hq, ⟨named, hrefs, fun r hr => (hnamed r hr).1⟩, hiff.trans ?_⟩
  exact List.forall_mem_singleton

/-- A query of a table without flaws refers to something that is no column of it. -/
theorem refers_undeclared : parcels.validate = .ok ()
    ∧ ∃ q, Query.ofStatement .ansi '*' parcels byCode = .ok q
      ∧ ¬∀ r ∈ columnRefs (lex .ansi q.sql), ∃ c ∈ parcels.columns, r = ⟨parcels.name, c.name⟩ := by
  obtain ⟨q, hq, hrefs⟩ := columnRefs_byCode
  refine ⟨rfl, q, hq, fun hall => ?_⟩
  have hcode : (⟨"parcels", "code"⟩ : ColumnRef) ∈ columnRefs (lex .ansi q.sql) := by
    rw [hrefs]
    decide
  obtain ⟨c, hc, heq⟩ := hall _ hcode
  rw [List.mem_singleton.mp hc] at heq
  exact absurd heq (by decide)

end Sql

end Rql
