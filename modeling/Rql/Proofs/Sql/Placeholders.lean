import Mathlib.Data.List.Forall2
import Rql.Proofs.Sql.Spelling
import Rql.Proofs.Sql.Steps

/-!
# Placeholders and their values

A query is sent as a text with placeholders and a list of values, and the database puts the values in
the places from left to right. `ofStatement_binds` says that this gives every comparison its own values:
there are as many placeholders as values, and with the values in their places the text is a row of
stretches, one for each comparison from left to right, with nothing between them that has a placeholder.
Each stretch is what its comparison is compiled to alone, its values in the places of its own
placeholders.

What lies between is the subject of `Threads`. It is kept by whatever a compilation does: groups put
keywords and parentheses around what they hold, and a query puts its own tokens around the filter.
-/

namespace Rql

/-- The values of a comparison, in the order of its placeholders. -/
def Comparison.boundValues (glyph : Char) (c : Comparison) : List Json :=
  match c.op with
  | .eq | .ne =>
    (c.value?.toList.filter fun l => !l.isNull).map fun l =>
      if l.hasWildcard glyph then .string (Text.replaceChar glyph '%' l.text) else l.toJson
  | .gt | .ge | .lt | .le => c.value?.toList.map Literal.toJson
  | .isIn | .out => c.values.map Literal.toJson
  | .sw => c.values.map fun l => .string (l.text ++ "%")
  | .ew => c.values.map fun l => .string ("%" ++ l.text)
  | .w | .wo => c.values.map fun l => .string ("%" ++ l.text ++ "%")
  | .n | .nn | .search => []
  | .emp | .nemp => [.string ""]

namespace Sql

/-! ## The values of a condition -/

namespace Condition

theorem paramsOfParts_eq_flatMap (parts : List Condition) :
    paramsOfParts parts = parts.flatMap params := by
  induction parts with
  | nil => rfl
  | cons part rest ih => rw [paramsOfParts, ih, List.flatMap_cons]

theorem params_combine (c : Conjunction) (parts : List Condition) :
    (combine c parts).params = parts.flatMap params := by
  rw [← paramsOfParts_eq_flatMap]
  rcases combine_cases c parts with ⟨part, rfl⟩ | hgroup
  · rw [combine, paramsOfParts, paramsOfParts, List.append_nil]
  · rw [hgroup, params]

theorem params_patterns (c : Conjunction) (col : ColumnRef) (relation : Relation)
    (before after : String) (values : List Literal) :
    (combine c (patterns col relation before after values)).params
      = values.map fun l => .string (before ++ l.text ++ after) := by
  rw [params_combine, patterns, List.flatMap_map]
  induction values with
  | nil => rfl
  | cons l rest ih => rw [List.flatMap_cons, ih, List.map_cons]; rfl

theorem firstValue_ok {c : Comparison} {l : Literal} (h : firstValue c = .ok l) :
    c.value? = some l := by
  rw [firstValue] at h
  cases hv : c.value? with
  | none => rw [hv] at h; exact absurd h (by simp)
  | some l' => rw [hv] at h; rw [Except.ok.inj h]

theorem params_equality (glyph : Char) (col : ColumnRef) (equal : Bool) (l : Literal) :
    (equality glyph col equal l).params
      = (if l.isNull then [] else if l.hasWildcard glyph
          then [.string (Text.replaceChar glyph '%' l.text)] else [l.toJson]) := by
  rw [equality]
  by_cases hn : l.isNull = true
  · rw [if_pos hn, if_pos hn]
    cases equal <;> rfl
  · rw [if_neg hn, if_neg hn]
    by_cases hg : l.hasWildcard glyph = true
    · rw [if_pos hg, if_pos hg]; rfl
    · rw [if_neg hg, if_neg hg]; rfl

/-- **The values of a condition are those that its comparison contributes.** -/
theorem params_ofColumn {glyph : Char} {col : ColumnRef} {c : Comparison} {cond : Condition}
    (h : ofColumn glyph col c = .ok cond) : cond.params = c.boundValues glyph := by
  obtain ⟨op, field, values⟩ := c
  cases op with
  | eq | ne =>
    obtain ⟨l, hl, rfl⟩ := map_ok h
    rw [params_equality, Comparison.boundValues, firstValue_ok hl]
    by_cases hn : l.isNull = true
    · simp [hn]
    · by_cases hg : l.hasWildcard glyph = true <;> simp [hn, hg]
  | gt | ge | lt | le =>
    obtain ⟨l, hl, rfl⟩ := map_ok h
    rw [Comparison.boundValues, firstValue_ok hl]
    rfl
  | isIn | out | n | nn | emp | nemp => cases h; rfl
  | sw | ew | w | wo =>
    cases h
    rw [params_patterns]
    simp [Comparison.boundValues]
  | search => exact absurd h (by simp [ofColumn])

end Condition

/-! ## Stretches of tokens -/

/-- The tokens are these stretches one after the other, with tokens before, between and behind them
that bind no value. -/
inductive Threads : List (List (Token Json)) → List (Token Json) → Prop
  | gap {ts : List (Token Json)} (h : ts.filterMap Token.value? = []) : Threads [] ts
  | stretch {gap stretch ts : List (Token Json)} {stretches : List (List (Token Json))}
      (h : gap.filterMap Token.value? = []) (rest : Threads stretches ts) :
      Threads (stretch :: stretches) (gap ++ (stretch ++ ts))

namespace Threads

variable {ss ss' : List (List (Token Json))} {ts ts' : List (Token Json)}

theorem single (ts : List (Token Json)) : Threads [ts] ts := by
  have h : Threads [ts] ([] ++ (ts ++ [])) := .stretch rfl (.gap rfl)
  rwa [List.nil_append, List.append_nil] at h

theorem behind (h : Threads ss ts) (gap : List (Token Json))
    (hgap : gap.filterMap Token.value? = []) : Threads ss (gap ++ ts) := by
  cases h with
  | gap h =>
    -- with no stretch behind it, the gap in front grows
    apply Threads.gap
    rw [List.filterMap_append, hgap, h, List.append_nil]
  | stretch h rest =>
    rw [← List.append_assoc]
    apply Threads.stretch _ rest
    rw [List.filterMap_append, hgap, h, List.append_nil]

theorem append (h : Threads ss ts) (h' : Threads ss' ts') : Threads (ss ++ ss') (ts ++ ts') := by
  induction h with
  | gap h => exact h'.behind _ h
  | stretch h _ ih =>
    rw [List.append_assoc, List.append_assoc]
    exact .stretch h ih

/-- A list of values goes along with the stretches. -/
theorem values (h : Threads ss ts) :
    ts.filterMap Token.value? = ss.flatMap (List.filterMap Token.value?) := by
  induction h with
  | gap h => exact h
  | stretch h _ ih =>
    rw [List.filterMap_append, List.filterMap_append, h, ih, List.flatMap_cons, List.nil_append]

/-- One more row in front, with a keyword behind it if there are others. -/
theorem intercalate_cons {w : String} {tss : List (List (Token Json))} (h : Threads ss ts)
    (h' : Threads ss' (List.intercalate [.text w] tss)) :
    Threads (ss ++ ss') (List.intercalate [.text w] (ts :: tss)) := by
  cases tss with
  | nil =>
    have := h.append h'
    rw [List.intercalate_nil, List.append_nil] at this
    rw [List.intercalate_singleton]
    exact this
  | cons us uss =>
    rw [List.intercalate_cons_cons, List.append_assoc]
    exact h.append (h'.behind _ rfl)

end Threads

/-! ## Stretches of compilations -/

/-- The tokens are those of the comparison compiled alone, with its values in their places. -/
def CompiledAlone (d : Dialect) (glyph : Char) (t : Table) (c : Comparison)
    (ts : List (Token Json)) : Prop :=
  ∃ q, Query.filterOfStatement d glyph t { table := t.name, predicates := [.compare c] } = .ok q
    ∧ q.params = c.boundValues glyph
    ∧ Token.bind (lex d q.sql) q.params = some ts

section

variable {d : Dialect} {glyph : Char} {t : Table}

theorem flatMap_values {cs : List Comparison} {ss : List (List (Token Json))}
    (h : List.Forall₂ (CompiledAlone d glyph t) cs ss) :
    ss.flatMap (List.filterMap Token.value?) = cs.flatMap (Comparison.boundValues glyph) := by
  induction h with
  | nil => rfl
  | cons hc _ ih =>
    obtain ⟨q, -, hparams, hbind⟩ := hc
    rw [List.flatMap_cons, List.flatMap_cons, ih, Token.values_of_bind hbind, hparams]

namespace Condition

theorem compiledAlone_ofComparison {c : Comparison} {cond : Condition}
    (h : ofComparison glyph t c = .ok cond) : CompiledAlone d glyph t c cond.tokens := by
  obtain ⟨col, -, hcond⟩ := ofComparison_ok h
  refine ⟨⟨cond.render d, cond.params⟩, ?_, params_ofColumn hcond, cond.bind_render d⟩
  simp [Query.filterOfStatement, ofStatement, ofPredicates, ofPredicate, h, Except.map, combine]

theorem threads_group {c : Conjunction} {parts : List Condition} {ss : List (List (Token Json))}
    (h : Threads ss (List.intercalate [.text c.word] (tokensOfParts parts))) :
    Threads ss (Condition.group c parts).tokens := by
  have hclose : Threads [] [.text ")"] := .gap rfl
  have := (h.append hclose).behind [.text "("] rfl
  rwa [List.append_nil] at this

theorem threads_combine {c : Conjunction} {parts : List Condition}
    {ss : List (List (Token Json))}
    (h : Threads ss (List.intercalate [.text c.word] (tokensOfParts parts))) :
    Threads ss (combine c parts).tokens := by
  rcases combine_cases c parts with ⟨part, rfl⟩ | hgroup
  · rw [tokensOfParts, tokensOfParts, List.intercalate_singleton] at h
    exact h
  · rw [hgroup]
    exact threads_group h

mutual

/-- **The tokens of a condition are those of its comparisons**, with keywords and parentheses between
them. -/
theorem threads_ofPredicate (d : Dialect) : (p : Predicate) → {cond : Condition} →
    ofPredicate glyph t p = .ok cond →
      ∃ ss, List.Forall₂ (CompiledAlone d glyph t) p.comparisons ss ∧ Threads ss cond.tokens
  | .compare c, cond, h =>
      ⟨[cond.tokens], .cons (compiledAlone_ofComparison h) .nil, .single cond.tokens⟩
  | .group c members, _, h => by
      obtain ⟨parts, hparts, rfl⟩ := (compiles glyph t).group_ok h
      obtain ⟨ss, hss, hts⟩ := threads_ofPredicates d c members hparts
      exact ⟨ss, hss, threads_group hts⟩

theorem threads_ofPredicates (d : Dialect) (c : Conjunction) : (ps : List Predicate) →
    {parts : List Condition} → ofPredicates glyph t ps = .ok parts →
      ∃ ss, List.Forall₂ (CompiledAlone d glyph t) (Predicate.comparisonsOfMembers ps) ss
        ∧ Threads ss (List.intercalate [.text c.word] (tokensOfParts parts))
  | [], _, h => by
      cases h
      exact ⟨[], .nil, .gap rfl⟩
  | p :: ps, _, h => by
      obtain ⟨part, rest, hpart, hrest, rfl⟩ := (compiles glyph t).cons_ok h
      obtain ⟨ss, hss, hts⟩ := threads_ofPredicate d p hpart
      obtain ⟨ss', hss', hts'⟩ := threads_ofPredicates d c ps hrest
      exact ⟨ss ++ ss', List.rel_append hss hss', hts.intercalate_cons hts'⟩

end

end Condition

namespace Select

theorem threads_whereTokens {s : Statement} {filter : Option Condition} (d : Dialect)
    (h : Condition.ofStatement glyph t s = .ok filter) (q : Select) (hq : q.filter = filter) :
    ∃ ss, List.Forall₂ (CompiledAlone d glyph t) s.comparisons ss ∧ Threads ss q.whereTokens := by
  obtain ⟨parts, hparts, ⟨hnil, rfl⟩ | ⟨-, rfl⟩⟩ := Condition.ofStatement_ok h
  · rw [Statement.comparisons, hnil, whereTokens, hq]
    exact ⟨[], .nil, .gap rfl⟩
  · obtain ⟨ss, hss, hts⟩ := Condition.threads_ofPredicates d s.conjunction s.predicates hparts
    rw [whereTokens, hq]
    exact ⟨ss, hss, (Condition.threads_combine hts).behind [.text "WHERE"] rfl⟩

theorem threads_ofStatement {s : Statement} {q : Select} (d : Dialect)
    (h : ofStatement glyph t s = .ok q) :
    ∃ ss, List.Forall₂ (CompiledAlone d glyph t) s.comparisons ss ∧ Threads ss q.tokens := by
  obtain ⟨filter, requested, hfilter, -, hq⟩ := ofStatement_ok h
  obtain ⟨ss, hss, hts⟩ := threads_whereTokens d hfilter q (by rw [hq])
  have htail : Threads [] (q.orderTokens ++ q.pageTokens) := by
    apply Threads.gap
    rw [List.filterMap_append, values_orderTokens, values_pageTokens, List.append_nil]
  have := (hts.append htail).behind q.tableTokens rfl
  rw [List.append_nil] at this
  exact ⟨ss, hss, this⟩

end Select

end

/-- **Placeholders and values line up.** There are as many placeholders outside of identifiers as
values, the values are those of the comparisons from left to right, and putting them in the places
gives every comparison its own. -/
theorem ofStatement_binds {d : Dialect} {glyph : Char} {t : Table} {s : Statement} {q : Query}
    (h : Query.ofStatement d glyph t s = .ok q) :
    (lex d q.sql).countP Token.isMark = q.params.length
      ∧ q.params = s.comparisons.flatMap (Comparison.boundValues glyph)
      ∧ ∃ ts ss, Token.bind (lex d q.sql) q.params = some ts ∧ Threads ss ts
        ∧ List.Forall₂ (CompiledAlone d glyph t) s.comparisons ss := by
  obtain ⟨select, hselect, rfl⟩ := map_ok h
  obtain ⟨ss, hss, hts⟩ := Select.threads_ofStatement d hselect
  refine ⟨?_, ?_, select.tokens, ss, select.bind_render d, hts, hss⟩
  · rw [Select.lex_render, Token.countP_isMark_erase, Select.values_tokens]
  · rw [← Select.values_tokens, hts.values, flatMap_values hss]

/-- A table with question marks and quotes in its names. -/
def markedNames : Table where
  name := "what?\x60"
  backend := .sql .mysql
  columns := [{ name := "a?", isKey := true }, { name := "b" }]

/-- Comparisons with no value, with one and with several. -/
def assorted : Statement where
  table := "what?"
  conjunction := .or
  predicates := [
    .compare ⟨.ne, "A?", [.bare "null"]⟩,
    .group .and [.compare ⟨.isIn, "a?", [.bare "1", .ofQuoted "?"]⟩, .compare ⟨.emp, "B", []⟩],
    .compare ⟨.eq, "b", [.bare "*x"]⟩]
  order := [⟨"b", .desc⟩]

/-- The question marks inside of identifiers do not count. -/
theorem binds_assorted :
    ∃ q, Query.ofStatement .mysql '*' markedNames assorted = .ok q
      ∧ q.params.length = 4
      ∧ (lex .mysql q.sql).countP Token.isMark = q.params.length
      ∧ q.params = assorted.comparisons.flatMap (Comparison.boundValues '*')
      ∧ ∃ ts ss, Token.bind (lex .mysql q.sql) q.params = some ts ∧ Threads ss ts
        ∧ List.Forall₂ (CompiledAlone .mysql '*' markedNames) assorted.comparisons ss := by
  have hlen : (Query.ofStatement .mysql '*' markedNames assorted).toOption.map
      (fun q => q.params.length) = some 4 := by decide +kernel
  obtain ⟨q, hq, hparams⟩ := Option.map_eq_some_iff.mp hlen
  have hquery := ok_of_toOption hq
  exact ⟨q, hquery, hparams, ofStatement_binds hquery⟩

end Sql

end Rql
