import Rql.Proofs.Partition.Spelling
import Rql.Proofs.Partition.Steps
import Rql.Proofs.Sql.Meaning

/-!
# What the filter of a plan says

A store reads a filter as a formula, once the placeholders have been looked up: `NOT` binds tighter than
`AND`, and `AND` tighter than `OR`. As with the filter of a query, an assignment `v : Atom → Bool` says
which atomic conditions hold of some row, `meaning` is what a comparison asks in terms of atoms alone,
and `Native` says which comparisons have a form at all.

The members of the whole filter stand without parentheses around them, those of a group stand in
parentheses, and comparisons with several values bring parentheses of their own. The main result,
`evaluate_filterOfPredicates`, is that no pair is missing: there is a filter exactly if every comparison
has a form, and under every assignment it has the value that the predicates have together.
-/

namespace Rql.Partition

open Formula (Reads)
open Sql (Token Atom)

/-! ## What comparisons ask -/

/-- The store knows a form of the comparison, and the values that it is given fit the column. -/
def Native (glyph : Char) (t : Table) (c : Comparison) : Prop :=
  match c.op with
  | .ew | .search | .emp | .nemp => False
  | .eq | .ne => ∀ l ∈ c.values,
      l.hasWildcard glyph = false ∧ (l.isNull = false → ∃ value, t.bind c.field l = .ok value)
  | .gt | .ge | .lt | .le | .isIn | .out => ∀ l ∈ c.values, ∃ value, t.bind c.field l = .ok value
  | .sw | .w | .wo | .n | .nn => True

/-- What a comparison asks of a row, where `v` says which atomic conditions hold. -/
def meaning (t : Table) (v : Atom → Bool) (c : Comparison) : Bool :=
  let absent := v (Atom.ofField "attribute_not_exists" c.field)
  let present := v (Atom.ofField "attribute_exists" c.field)
  let call (function : String) (l : Literal) := v (Atom.ofCall function c.field (.string l.text))
  let relation (sign : String) (l : Literal) :=
    (t.bind c.field l).toOption.any fun value => v (Atom.ofRelation c.field sign value)
  let among (ls : List Literal) :=
    (ls.mapM (t.bind c.field)).toOption.any fun values => v (Atom.ofList c.field values)
  match c.op, c.values with
  | .eq, [l] => if l.isNull then absent else relation "=" l
  | .ne, [l] => if l.isNull then present else relation "<>" l
  | .gt, [l] => relation ">" l
  | .ge, [l] => relation ">=" l
  | .lt, [l] => relation "<" l
  | .le, [l] => relation "<=" l
  | .sw, ls => ls.any (call "begins_with")
  | .w, ls => ls.any (call "contains")
  | .wo, ls => ls.all fun l => !call "contains" l
  | .isIn, ls => among ls
  | .out, ls => !among ls
  | .n, _ => absent
  | .nn, _ => present
  | _, _ => false

namespace Condition

variable {glyph : Char} {t : Table}

/-! ## Comparisons with a form -/

theorem equality_singleton (glyph : Char) (t : Table) (op : Operator) (field : String)
    (l : Literal) (null : Condition) :
    equality glyph t ⟨op, field, [l]⟩ null
      = if l.hasWildcard glyph then .error .noForm
        else if l.isNull then .ok null
        else (bindValue t field l).map (.test field op) := by
  rw [equality]
  show (if l.hasWildcard glyph then _ else _) = _
  by_cases hg : l.hasWildcard glyph = true
  · rw [if_pos hg, if_pos hg]
    rfl
  · rw [if_neg hg, if_neg hg]
    by_cases hn : l.isNull = true
    · rw [if_pos hn, if_pos hn]
      rfl
    · rw [if_neg hn, if_neg hn]
      show (bindValue t field l >>= _) = _
      cases bindValue t field l <;> rfl

theorem ofComparison_range (glyph : Char) (t : Table) {op : Operator} (hop : op.isRange = true)
    (field : String) (l : Literal) :
    ofComparison glyph t ⟨op, field, [l]⟩ = (bindValue t field l).map (.test field op) := by
  cases op with
  | gt | ge | lt | le =>
    show (bindValue t field l >>= _) = _
    cases bindValue t field l <;> rfl
  | _ => exact absurd hop (by decide)

theorem equality_ok_iff {op : Operator} {field : String} {l : Literal} {null cond : Condition} :
    equality glyph t ⟨op, field, [l]⟩ null = .ok cond
      ↔ l.hasWildcard glyph = false
        ∧ ((l.isNull = true ∧ cond = null)
          ∨ (l.isNull = false
            ∧ ∃ value, t.bind field l = .ok value ∧ cond = .test field op value)) := by
  rw [equality_singleton]
  by_cases hg : l.hasWildcard glyph = true
  · simp [hg]
  · by_cases hn : l.isNull = true
    · simp [hg, hn, eq_comm]
    · rw [if_neg hg, if_neg hn]
      constructor
      · intro h
        obtain ⟨value, hvalue, rfl⟩ := map_ok h
        exact ⟨by simpa using hg, .inr ⟨by simpa using hn, value, mapError_ok hvalue, rfl⟩⟩
      · rintro ⟨-, ⟨hnull, -⟩ | ⟨-, value, hvalue, rfl⟩⟩
        · exact absurd hnull hn
        · rw [bindValue, hvalue]
          rfl

theorem exists_equality_iff {op : Operator} {field : String} {l : Literal} {null : Condition} :
    (∃ cond, equality glyph t ⟨op, field, [l]⟩ null = .ok cond)
      ↔ l.hasWildcard glyph = false
        ∧ (l.isNull = false → ∃ value, t.bind field l = .ok value) := by
  simp only [equality_ok_iff]
  cases l.isNull <;> simp

theorem exists_ofComparison_iff {c : Comparison} (ha : c.hasArity = true) :
    (∃ cond, ofComparison glyph t c = .ok cond) ↔ Native glyph t c := by
  obtain ⟨op, field, values⟩ := c
  cases op with
  | eq | ne =>
    obtain ⟨l, rfl⟩ := eq_singleton_of_hasArity ha rfl
    simp only [Native, List.forall_mem_singleton]
    exact exists_equality_iff
  | gt | ge | lt | le =>
    obtain ⟨l, rfl⟩ := eq_singleton_of_hasArity ha rfl
    rw [ofComparison_range glyph t rfl, exists_map_ok_iff, bindValue, exists_mapError_ok_iff]
    simp only [Native, List.forall_mem_singleton]
  | isIn | out =>
    rw [ofComparison, exists_map_ok_iff, exists_mapM_ok_iff]
    simp only [bindValue, exists_mapError_ok_iff]
    rfl
  | sw | w | wo | n | nn => exact iff_of_true ⟨_, rfl⟩ trivial
  | ew | search | emp | nemp => exact iff_of_false (fun ⟨_, h⟩ => nomatch h) id

/-- Predicates have conditions exactly if each of their comparisons has a form. -/
theorem exists_ofPredicates_iff (ps : List Predicate) (hw : Predicate.wellFormedMembers ps = true) :
    (∃ parts, ofPredicates glyph t ps = .ok parts)
      ↔ ∀ c ∈ Predicate.comparisonsOfMembers ps, Native glyph t c := by
  rw [(compiles glyph t).exists_ok_iff]
  exact forall₂_congr fun c hc =>
    exists_ofComparison_iff (Predicate.hasArity_of_wellFormedMembers ps hw c hc)

/-! ## Conditions as operands -/

variable {v : Atom → Bool}

theorem isAtom_ofList (field : String) (values : List Json) :
    Formula.isAtom Token.role (Atom.ofList field values) = true := by
  -- the parenthesis of the list opens inside of the atom, so commas and values belong to it
  show Formula.closed Token.role 1 (_ ++ [.text ")"]) = true
  rw [Sql.closed_append_parts (Sql.role_placeholders values)]
  rfl

theorem reads_group {tss : List (List (Token Json))} {bs : List Bool} (c : Conjunction)
    (h : List.Forall₂ (Reads Token.role v) tss bs) (hne : tss ≠ []) :
    Reads Token.role v (enclose (joinTokens c tss)) (c.combine bs) :=
  Formula.reads_group (Sql.Condition.role_word c) rfl rfl h hne

theorem reads_enclose {ts : List (Token Json)} {b : Bool} (h : Reads Token.role v ts b) :
    Reads Token.role v (enclose ts) b := by
  have hgroup := reads_group .and (.cons h .nil) (List.cons_ne_nil ts [])
  rwa [joinTokens, List.intercalate_singleton, Conjunction.combine_singleton] at hgroup

/-- Only an operand that stands alone goes without parentheses. -/
theorem reads_wrap {tss : List (List (Token Json))} {bs : List Bool} (c : Conjunction)
    (h : List.Forall₂ (Reads Token.role v) tss bs) (hne : tss ≠ []) :
    Reads Token.role v (wrapTokens c tss) (c.combine bs) := by
  have hgroup := reads_group c h hne
  cases h with
  | nil => exact absurd rfl hne
  | cons hfirst hrest =>
    cases hrest with
    | nil =>
      rw [Conjunction.combine_singleton]
      exact hfirst
    | cons hsecond hrest => exact hgroup

theorem reads_test {field : String} {l : Literal} {value : Json} (op : Operator)
    (h : t.bind field l = .ok value) :
    Reads Token.role v (tokens (.test field op value))
      ((t.bind field l).toOption.any fun value => v (Atom.ofRelation field (symbol op) value)) := by
  rw [h]
  exact Formula.reads_atom (by cases op <;> rfl)

/-- Null has a condition of its own, any other value is compared with. -/
theorem reads_equality {op : Operator} {field : String} {l : Literal} {null cond : Condition}
    {b : Bool} (h : equality glyph t ⟨op, field, [l]⟩ null = .ok cond)
    (hnull : Reads Token.role v null.tokens b) :
    Reads Token.role v cond.tokens (if l.isNull then b else
      (t.bind field l).toOption.any fun value => v (Atom.ofRelation field (symbol op) value)) := by
  obtain ⟨-, ⟨hn, rfl⟩ | ⟨hn, value, hvalue, rfl⟩⟩ := equality_ok_iff.mp h
  · rw [if_pos hn]
    exact hnull
  · rw [if_neg (by simp [hn])]
    exact reads_test op hvalue

theorem reads_isIn {field : String} {ls : List Literal} {values : List Json}
    (h : ls.mapM (bindValue t field) = .ok values) :
    Reads Token.role v (Atom.ofList field values)
      ((ls.mapM (t.bind field)).toOption.any fun values => v (Atom.ofList field values)) := by
  rw [mapM_mapError_ok h]
  exact Formula.reads_atom (isAtom_ofList field values)

theorem reads_call {function : String} (hf : Token.role (.text (α := Json) function) = .part)
    (field : String) (value : Json) :
    Reads Token.role v (Atom.ofCall function field value) (v (Atom.ofCall function field value)) := by
  apply Formula.reads_atom
  rw [Atom.ofCall, Formula.isAtom, hf]
  rfl

/-- One operand for each of several values. -/
theorem reads_wrapEach (c : Conjunction) {tokens : String → List (Token Json)} {holds : String → Bool}
    (h : ∀ s, Reads Token.role v (tokens s) (holds s)) {ls : List Literal} (hne : ls ≠ []) :
    Reads Token.role v (wrapTokens c ((ls.map Literal.text).map tokens))
      (c.combine (ls.map fun l => holds l.text)) := by
  rw [List.map_map]
  refine reads_wrap c ?_ fun he => hne (List.map_eq_nil_iff.mp he)
  rw [List.forall₂_map_left_iff, List.forall₂_map_right_iff, List.forall₂_same]
  exact fun l _ => h l.text

/-- Calls for several values, one of which has to hold. -/
theorem reads_anyCall (function : String) (hf : Token.role (.text (α := Json) function) = .part)
    (field : String) {ls : List Literal} (hne : ls ≠ []) :
    Reads Token.role v
      (wrapTokens .or ((ls.map Literal.text).map fun s => Atom.ofCall function field (.string s)))
      (ls.any fun l => v (Atom.ofCall function field (.string l.text))) := by
  have hread := reads_wrapEach (v := v) .or (fun s => reads_call hf field (.string s)) hne
  rwa [Conjunction.combine, List.any_map] at hread

/-- **The condition of a comparison reads as what the comparison asks.** -/
theorem reads_ofComparison {c : Comparison} {cond : Condition}
    (h : ofComparison glyph t c = .ok cond) (ha : c.hasArity = true) :
    Reads Token.role v cond.tokens (meaning t v c) := by
  obtain ⟨op, field, values⟩ := c
  -- the arity tells how many values there are, and with them the condition is known
  cases op with
  | eq =>
    obtain ⟨l, rfl⟩ := eq_singleton_of_hasArity ha rfl
    have h : equality glyph t ⟨.eq, field, [l]⟩ (.absent field) = .ok cond := h
    exact reads_equality h (Formula.reads_atom rfl)
  | ne =>
    obtain ⟨l, rfl⟩ := eq_singleton_of_hasArity ha rfl
    have h : equality glyph t ⟨.ne, field, [l]⟩ (.present field) = .ok cond := h
    exact reads_equality h (Formula.reads_atom rfl)
  | gt | ge | lt | le =>
    obtain ⟨l, rfl⟩ := eq_singleton_of_hasArity ha rfl
    rw [ofComparison_range glyph t rfl] at h
    obtain ⟨value, hvalue, rfl⟩ := map_ok h
    exact reads_test _ (mapError_ok hvalue)
  | isIn =>
    obtain ⟨bound, hbound, rfl⟩ := map_ok h
    exact reads_isIn hbound
  | out =>
    obtain ⟨bound, hbound, rfl⟩ := map_ok h
    exact Formula.reads_not rfl (reads_enclose (reads_isIn hbound))
  | sw =>
    cases h
    exact reads_anyCall "begins_with" rfl field (ne_nil_of_hasArity ha rfl)
  | w =>
    cases h
    exact reads_anyCall "contains" rfl field (ne_nil_of_hasArity ha rfl)
  | wo =>
    cases h
    have hnot : ∀ s, Reads Token.role v (.text "NOT" :: Atom.ofCall "contains" field (.string s))
        (!v (Atom.ofCall "contains" field (.string s))) :=
      fun s => Formula.reads_not rfl (reads_call rfl field (.string s))
    have hread := reads_wrapEach .and hnot (ne_nil_of_hasArity ha rfl)
    rwa [Conjunction.combine, List.all_map] at hread
  | n | nn =>
    cases h
    exact Formula.reads_atom rfl
  | ew | search | emp | nemp => exact absurd h (by simp [ofComparison])

/-! ## Conditions of predicates -/

theorem tokensOfParts_ne_nil {parts : List Condition} {ps : List Predicate}
    (h : List.Forall₂ (Reads Token.role v) (tokensOfParts parts)
      (Predicate.truths (meaning t v) ps)) (hne : ps ≠ []) : tokensOfParts parts ≠ [] := by
  intro he
  rw [he, List.forall₂_nil_left_iff, Predicate.truths_eq_map, List.map_eq_nil_iff] at h
  exact hne h

/-- **The conditions of predicates read as the predicates.** -/
theorem reads_ofPredicates (ps : List Predicate) {parts : List Condition}
    (h : ofPredicates glyph t ps = .ok parts) (hw : Predicate.wellFormedMembers ps = true) :
    List.Forall₂ (Reads Token.role v) (tokensOfParts parts)
      (Predicate.truths (meaning t v) ps) := by
  rw [tokensOfParts_eq_map]
  refine Formula.reads_members (compiles glyph t) reads_ofComparison ?_ ps h hw
  intro c parts bs hparts hne
  rw [tokens, tokensOfParts_eq_map]
  exact reads_group c hparts fun he => hne (List.map_eq_nil_iff.mp he)

end Condition

/-! ## Whole filters -/

namespace Filter

/-- The value of the filter, if its placeholders are known and it is a formula. -/
def evaluate (v : Atom → Bool) (f : Filter) : Option Bool :=
  f.tokens?.bind (Formula.evaluate Token.role v)

theorem ofPredicates_eq_some_iff {glyph : Char} {t : Table} {c : Conjunction} {ps : List Predicate}
    {f : Filter} :
    ofPredicates glyph t c ps = .ok (some f)
      ↔ ps ≠ [] ∧ ∃ parts, Condition.ofPredicates glyph t ps = .ok parts ∧ f = ⟨c, parts⟩ := by
  cases ps with
  | nil => simp [ofPredicates]
  | cons p ps =>
    rw [ofPredicates]
    · cases h : Condition.ofPredicates glyph t (p :: ps) with
      | error e => cases e <;> simp
      | ok parts => simp [eq_comm]
    · exact List.cons_ne_nil p ps

end Filter

/-- **Predicates have a filter exactly if each of their comparisons has a form**, and the filter says
what the predicates say together, whichever atomic conditions hold. -/
theorem evaluate_filterOfPredicates {ps : List Predicate}
    (hw : Predicate.wellFormedMembers ps = true) (glyph : Char) (t : Table) (c : Conjunction) :
    ((∃ f, Filter.ofPredicates glyph t c ps = .ok (some f))
        ↔ ps ≠ [] ∧ ∀ d ∈ Predicate.comparisonsOfMembers ps, Native glyph t d)
      ∧ ∀ f, Filter.ofPredicates glyph t c ps = .ok (some f) → ∀ v,
          f.evaluate v = some (Predicate.holdTogether (meaning t v) c ps) := by
  refine ⟨?_, ?_⟩
  · rw [← Condition.exists_ofPredicates_iff ps hw]
    constructor
    · rintro ⟨f, hf⟩
      obtain ⟨hne, parts, hparts, -⟩ := Filter.ofPredicates_eq_some_iff.mp hf
      exact ⟨hne, parts, hparts⟩
    · rintro ⟨hne, parts, hparts⟩
      exact ⟨⟨c, parts⟩, Filter.ofPredicates_eq_some_iff.mpr ⟨hne, parts, hparts, rfl⟩⟩
  · intro f hf v
    obtain ⟨hne, parts, hparts, rfl⟩ := Filter.ofPredicates_eq_some_iff.mp hf
    have hreads := Condition.reads_ofPredicates (v := v) ps hparts hw
    have hword := Sql.Condition.role_word c
    rw [Filter.evaluate, Filter.tokens?_eq, Option.bind_some, Condition.joinTokens,
      Formula.evaluate_members hword hreads (Condition.tokensOfParts_ne_nil hreads hne),
      Predicate.holdTogether_of_ne_nil _ _ hne]

/-- A table with one column of numbers. -/
def parcels : Table where
  name := "parcels"
  backend := .partitionKey
  columns := [{ name := "Weight", type := "N" }]

/-- Negations with parentheses and without, and a group whose first member is a group itself. -/
def negations : List Predicate := [
  .compare ⟨.out, "state", [.bare "lost", .bare "sold"]⟩,
  .group .and [
    .compare ⟨.wo, "note", [.bare "x", .bare "y"]⟩,
    .compare ⟨.ge, "weight", [.bare "5"]⟩],
  .compare ⟨.ne, "state", [.bare "null"]⟩]

/-- The conditions with a value hold, the others do not. -/
theorem evaluate_negations :
    Predicate.wellFormedMembers negations = true
      ∧ ∃ f, Filter.ofPredicates '*' parcels .or negations = .ok (some f)
        ∧ f.expression = "NOT (#f0 IN (:v0, :v1)) OR ((NOT contains(#f1, :v2)"
            ++ " AND NOT contains(#f1, :v3)) AND #f2 >= :v4) OR attribute_exists(#f0)"
        ∧ f.evaluate (fun a => a.any Token.isMark) = some false := by
  have hw : Predicate.wellFormedMembers negations = true := by decide +kernel
  obtain ⟨-, hmeans⟩ := evaluate_filterOfPredicates hw '*' parcels .or
  have hsome : ((Filter.ofPredicates '*' parcels .or negations).toOption.join.map
      Filter.expression) = some ("NOT (#f0 IN (:v0, :v1)) OR ((NOT contains(#f1, :v2)"
        ++ " AND NOT contains(#f1, :v3)) AND #f2 >= :v4) OR attribute_exists(#f0)") := by
    decide +kernel
  obtain ⟨f, hf, hexpression⟩ := Option.map_eq_some_iff.mp hsome
  have hok : Filter.ofPredicates '*' parcels .or negations = .ok (some f) :=
    ok_of_toOption (Option.join_eq_some_iff.mp hf)
  refine ⟨hw, f, hok, hexpression, ?_⟩
  rw [hmeans f hok]
  decide +kernel

end Rql.Partition
