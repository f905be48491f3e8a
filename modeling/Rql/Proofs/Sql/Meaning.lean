import Rql.Proofs.Formula
import Rql.Proofs.Sql.Spelling
import Rql.Proofs.Sql.Steps

/-!
# What a filter says

A database reads the filter of a query as a formula: `AND` binds tighter than `OR`, parentheses go first,
and what stands between the keywords is an atomic condition. The assignment `v : Atom → Bool` says which
atomic conditions hold of some row, where an atom is its tokens with the bound values in their places.

`Comparison.asks` is what a comparison asks of a column, in terms of atoms alone, and `meaning` looks up
the column. The main result is `evaluate_filterOfStatement`: under every assignment the filter has the
value that the statement has when each comparison stands for its meaning. A missing pair of parentheses
anywhere would change the value under some assignment.
-/

namespace Rql

open Formula (Reads)

namespace Sql

/-- What a token does in a condition. -/
def Token.role {α : Type} : Token α → Formula.Role
  | .text "(" => .opening
  | .text ")" => .closing
  | .text "AND" => .and
  | .text "OR" => .or
  | .text "NOT" => .not
  | _ => .part

end Sql

/-! ## What comparisons ask -/

section

open Sql

/-- What a comparison asks of a column, where `v` says which atomic conditions hold. -/
def Comparison.asks (glyph : Char) (v : Atom → Bool) (col : ColumnRef) (c : Comparison) : Bool :=
  let isNull := v (col.alone ["IS", "NULL"])
  let isNotNull := v (col.alone ["IS", "NOT", "NULL"])
  let text (words : List String) (s : String) := v (col.against words (.string s))
  let value (words : List String) (l : Literal) := v (col.against words l.toJson)
  let pattern (l : Literal) := Text.replaceChar glyph '%' l.text
  match c.op, c.values with
  | .eq, [l] =>
    if l.isNull then isNull
    else if l.hasWildcard glyph then text ["LIKE"] (pattern l) else value ["="] l
  | .ne, [l] =>
    if l.isNull then isNotNull
    else if l.hasWildcard glyph then text ["NOT", "LIKE"] (pattern l) else value ["<>"] l
  | .gt, [l] => value [">"] l
  | .ge, [l] => value [">="] l
  | .lt, [l] => value ["<"] l
  | .le, [l] => value ["<="] l
  | .isIn, ls => v (col.among ["IN"] (ls.map Literal.toJson))
  | .out, ls => v (col.among ["NOT", "IN"] (ls.map Literal.toJson))
  | .sw, ls => ls.any fun l => text ["LIKE"] (l.text ++ "%")
  | .ew, ls => ls.any fun l => text ["LIKE"] ("%" ++ l.text)
  | .w, ls => ls.any fun l => text ["LIKE"] ("%" ++ l.text ++ "%")
  | .wo, ls => ls.all fun l => text ["NOT", "LIKE"] ("%" ++ l.text ++ "%")
  | .n, _ => isNull
  | .nn, _ => isNotNull
  | .emp, _ => isNull || text ["="] ""
  | .nemp, _ => isNotNull && text ["<>"] ""
  | _, _ => false

/-- What a comparison asks of the column that its field names. -/
def Comparison.meaning (glyph : Char) (t : Table) (v : Atom → Bool) (c : Comparison) : Bool :=
  match t.column? c.field with
  | some col => c.asks glyph v ⟨t.name, col.name⟩
  | none => false

end

/-! ## Conditions as operands -/

namespace Sql

variable {v : Atom → Bool} {col : ColumnRef}

theorem closed_append_parts {ts us : List (Token Json)} (h : ∀ t ∈ ts, t.role = .part)
    (depth : Nat) :
    Formula.closed Token.role depth (ts ++ us) = Formula.closed Token.role depth us := by
  induction ts with
  | nil => rfl
  | cons t ts ih =>
    rw [List.cons_append, ← ih fun t' ht' => h t' (List.mem_cons_of_mem t ht')]
    simp only [Formula.closed, h t List.mem_cons_self]

theorem role_placeholders (values : List Json) :
    ∀ t ∈ List.intercalate [.text ","] (values.map fun value => [Token.mark value]),
      t.role = .part := by
  induction values with
  | nil => intro t h; exact absurd h List.not_mem_nil
  | cons value rest ih =>
    intro t h
    cases rest with
    | nil =>
      rw [List.map_singleton, List.intercalate_singleton] at h
      rw [List.mem_singleton.mp h]
      rfl
    | cons value' rest =>
      rw [List.map_cons, List.map_cons, List.intercalate_cons_cons] at h
      rcases List.mem_append.mp h with hfirst | hrest
      · simp only [List.singleton_append, List.mem_cons, List.not_mem_nil, or_false] at hfirst
        rcases hfirst with rfl | rfl <;> rfl
      · exact ih t hrest

theorem isAtom_among {words : List String} (values : List Json)
    (h : words = ["IN"] ∨ words = ["NOT", "IN"]) :
    Formula.isAtom Token.role (col.among words values) = true := by
  -- the parenthesis of the list opens inside of the atom, so commas and placeholders belong to it
  have hclosed : Formula.closed Token.role 1
      (List.intercalate [.text ","] (values.map fun value => [Token.mark value]) ++ [.text ")"])
      = true := by
    rw [closed_append_parts (role_placeholders values)]
    rfl
  rcases h with rfl | rfl <;> exact hclosed

namespace Condition

/-- The condition has no parts. -/
def isAtomic : Condition → Bool
  | .group .. => false
  | _ => true

/-- The keywords and parentheses inside of a condition without parts do not break it up. -/
theorem reads_of_isAtomic {c : Condition} (h : c.isAtomic = true) :
    Reads Token.role v c.tokens (v c.tokens) := by
  apply Formula.reads_atom
  cases c with
  | isNull col => rfl
  | isNotNull col => rfl
  | test col relation value => cases relation <;> rfl
  | isIn col values => exact isAtom_among values (.inl rfl)
  | notIn col values => exact isAtom_among values (.inr rfl)
  | group conjunction parts => exact absurd h Bool.false_ne_true

theorem role_word (c : Conjunction) :
    (Token.text (α := Json) c.word).role = .between c := by
  cases c <;> rfl

theorem reads_group {parts : List Condition} {bs : List Bool} (c : Conjunction)
    (h : List.Forall₂ (Reads Token.role v) (tokensOfParts parts) bs) (hne : parts ≠ []) :
    Reads Token.role v (Condition.group c parts).tokens (c.combine bs) := by
  have hts : tokensOfParts parts ≠ [] := by
    rw [tokensOfParts_eq_map]
    exact fun he => hne (List.map_eq_nil_iff.mp he)
  exact Formula.reads_group (role_word c) rfl rfl h hts

/-- Without parentheses `AND` takes from `OR` what stands before it. -/
example :
    Formula.evaluate Token.role (· == [.name "a"]) (lex .ansi "\"a\" OR \"b\" AND \"c\"") = some true
      ∧ Formula.evaluate Token.role (· == [.name "a"]) (lex .ansi "(\"a\" OR \"b\") AND \"c\"")
        = some false := by decide +kernel

/-- Only a condition that stands alone goes without parentheses. -/
theorem reads_combine {parts : List Condition} {bs : List Bool} (c : Conjunction)
    (h : List.Forall₂ (Reads Token.role v) (tokensOfParts parts) bs) (hne : parts ≠ []) :
    Reads Token.role v (combine c parts).tokens (c.combine bs) := by
  rcases combine_cases c parts with ⟨part, rfl⟩ | hgroup
  · cases h with
    | cons hpart hrest =>
      cases hrest
      rw [Conjunction.combine_singleton]
      exact hpart
  · rw [hgroup]
    exact reads_group c h hne

theorem reads_equality (glyph : Char) (field : String) (equal : Bool) (l : Literal) :
    Reads Token.role v (equality glyph col equal l).tokens
      (Comparison.asks glyph v col ⟨if equal then .eq else .ne, field, [l]⟩) := by
  by_cases hn : l.isNull = true
  · cases equal <;>
      simp only [equality, Comparison.asks, hn, if_true, if_false, Bool.false_eq_true] <;>
      exact reads_of_isAtomic rfl
  · by_cases hg : l.hasWildcard glyph = true <;> cases equal <;>
      simp only [equality, Comparison.asks, hn, hg, if_true, if_false, Bool.false_eq_true] <;>
      exact reads_of_isAtomic rfl

theorem reads_patterns (v : Atom → Bool) (col : ColumnRef) (c : Conjunction) (relation : Relation) (before after : String)
    {values : List Literal} (hne : values ≠ []) :
    Reads Token.role v (combine c (patterns col relation before after values)).tokens
      (c.combine (values.map fun l =>
        v (col.against relation.words (.string (before ++ l.text ++ after))))) := by
  apply reads_combine
  · rw [tokensOfParts_eq_map, patterns, List.map_map, List.forall₂_map_left_iff,
      List.forall₂_map_right_iff, List.forall₂_same]
    exact fun l _ => reads_of_isAtomic rfl
  · exact fun he => hne (List.map_eq_nil_iff.mp he)

theorem reads_pair (v : Atom → Bool) (c : Conjunction) (a b : Condition)
    (ha : a.isAtomic = true) (hb : b.isAtomic = true) :
    Reads Token.role v (Condition.group c [a, b]).tokens
      (c.combine [v a.tokens, v b.tokens]) := by
  apply reads_group
  · exact .cons (reads_of_isAtomic ha) (.cons (reads_of_isAtomic hb) .nil)
  · exact List.cons_ne_nil a [b]

/-- **The condition of a comparison reads as what the comparison asks of the column.** -/
theorem reads_ofColumn {glyph : Char} {c : Comparison} {cond : Condition}
    (h : ofColumn glyph col c = .ok cond) (ha : c.hasArity = true) :
    Reads Token.role v cond.tokens (c.asks glyph v col) := by
  obtain ⟨op, field, values⟩ := c
  -- the arity tells how many values there are, and with them the condition is known
  cases op with
  | eq =>
    obtain ⟨l, rfl⟩ := eq_singleton_of_hasArity ha rfl
    cases h
    exact reads_equality glyph field true l
  | ne =>
    obtain ⟨l, rfl⟩ := eq_singleton_of_hasArity ha rfl
    cases h
    exact reads_equality glyph field false l
  | gt | ge | lt | le =>
    obtain ⟨l, rfl⟩ := eq_singleton_of_hasArity ha rfl
    cases h
    exact reads_of_isAtomic rfl
  | isIn | out | n | nn =>
    cases h
    exact reads_of_isAtomic rfl
  | sw =>
    cases h
    have hread := reads_patterns v col .or .like "" "%" (ne_nil_of_hasArity ha rfl)
    simpa [Conjunction.combine, Comparison.asks, Relation.words, Function.comp_def] using hread
  | ew =>
    cases h
    have hread := reads_patterns v col .or .like "%" "" (ne_nil_of_hasArity ha rfl)
    simpa [Conjunction.combine, Comparison.asks, Relation.words, Function.comp_def] using hread
  | w =>
    cases h
    have hread := reads_patterns v col .or .like "%" "%" (ne_nil_of_hasArity ha rfl)
    simpa [Conjunction.combine, Comparison.asks, Relation.words, Function.comp_def] using hread
  | wo =>
    cases h
    have hread := reads_patterns v col .and .notLike "%" "%" (ne_nil_of_hasArity ha rfl)
    simpa [Conjunction.combine, Comparison.asks, Relation.words, Function.comp_def] using hread
  | emp =>
    cases h
    have hread := reads_pair v .or (isNull col) (test col .eq (.string "")) rfl rfl
    simpa [Conjunction.combine, Comparison.asks, tokens, Relation.words] using hread
  | nemp =>
    cases h
    have hread := reads_pair v .and (isNotNull col) (test col .ne (.string "")) rfl rfl
    simpa [Conjunction.combine, Comparison.asks, tokens, Relation.words] using hread
  | search => exact absurd h (by simp [ofColumn])

/-! ## Conditions of predicates -/

section

variable {glyph : Char} {t : Table}

theorem reads_ofComparison {c : Comparison} {cond : Condition}
    (h : ofComparison glyph t c = .ok cond) (ha : c.hasArity = true) :
    Reads Token.role v cond.tokens (c.meaning glyph t v) := by
  obtain ⟨col, hcol, hcond⟩ := ofComparison_ok h
  rw [Comparison.meaning, hcol]
  exact reads_ofColumn hcond ha

/-- **The conditions of predicates read as the predicates.** -/
theorem reads_ofPredicates (ps : List Predicate) {parts : List Condition}
    (h : ofPredicates glyph t ps = .ok parts) (hw : Predicate.wellFormedMembers ps = true) :
    List.Forall₂ (Reads Token.role v) (tokensOfParts parts)
      (Predicate.truths (Comparison.meaning glyph t v) ps) := by
  rw [tokensOfParts_eq_map]
  refine Formula.reads_members (compiles glyph t) reads_ofComparison ?_ ps h hw
  intro c parts bs hparts hne
  rw [← tokensOfParts_eq_map] at hparts
  exact reads_group c hparts hne

end

end Condition

/-- **The filter of a statement says what the statement says**, whichever atomic conditions hold. -/
theorem evaluate_filterOfStatement {d : Dialect} {glyph : Char} {t : Table} {s : Statement}
    {q : Query} (hne : s.predicates ≠ []) (hw : s.wellFormed = true)
    (h : Query.filterOfStatement d glyph t s = .ok q) (v : Atom → Bool) :
    (Token.bind (lex d q.sql) q.params).bind (Formula.evaluate Token.role v)
      = some (s.holds (Comparison.meaning glyph t v)) := by
  obtain ⟨filter, hfilter, rfl⟩ := map_ok h
  obtain ⟨parts, hparts, ⟨hnil, -⟩ | ⟨-, rfl⟩⟩ := Condition.ofStatement_ok hfilter
  · exact absurd hnil hne
  have hread := Condition.reads_combine (v := v) s.conjunction
    (Condition.reads_ofPredicates s.predicates hparts hw) (Condition.ofPredicates_ne_nil hparts hne)
  have hholds : s.holds (Comparison.meaning glyph t v)
      = s.conjunction.combine
          (Predicate.truths (Comparison.meaning glyph t v) s.predicates) := by
    rw [Statement.holds, Predicate.holdTogether, List.isEmpty_eq_false_iff.mpr hne, Bool.false_or]
  rw [hholds, ← Formula.evaluate_of_reads hread]
  show (Token.bind (lex d ((Condition.combine s.conjunction parts).render d))
    (Condition.combine s.conjunction parts).params).bind _ = _
  rw [Condition.bind_render]
  rfl

/-- A table whose names would break out of weaker quotes. -/
def quotedNames : Table where
  name := "t\" OR (\"u"
  backend := .sql .ansi
  columns := [{ name := "a) AND ?" }, { name := "b" }]

/-- Groups inside one another, and comparisons that are groups themselves. -/
def nested : Statement where
  table := "t"
  conjunction := .or
  predicates := [
    .compare ⟨.eq, "A) and ?", [.bare "null"]⟩,
    .group .and [
      .compare ⟨.sw, "b", [.bare "x", .bare "y"]⟩,
      .group .or [.compare ⟨.emp, "b", []⟩]]]

/-- The conditions with a value hold, the others do not. -/
theorem evaluate_nested :
    ∃ q, nested.predicates ≠ [] ∧ nested.wellFormed = true
      ∧ Query.filterOfStatement .ansi '*' quotedNames nested = .ok q
      ∧ (Token.bind (lex .ansi q.sql) q.params).bind
          (Formula.evaluate Token.role fun a => a.any Token.isMark) = some true := by
  have hok : (Query.filterOfStatement .ansi '*' quotedNames nested).toOption.isSome = true := by
    decide +kernel
  obtain ⟨q, hq⟩ := Option.isSome_iff_exists.mp hok
  have hfilter := ok_of_toOption hq
  refine ⟨q, List.cons_ne_nil _ _, rfl, hfilter, ?_⟩
  rw [evaluate_filterOfStatement (List.cons_ne_nil _ _) rfl hfilter]
  decide +kernel

end Sql

end Rql
