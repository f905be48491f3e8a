import Rql.Proofs.Predicate.Compilation
import Rql.Sql.Select

/-!
# What an accepted compilation went through

If a statement has a query, then every predicate has its condition, and the query is put together from
these: the conditions of the members make the group, those of the predicates the filter.
-/

namespace Rql.Sql

variable {glyph : Char} {t : Table}

namespace Condition

/-- Conditions come together in a group, unless there is just one. -/
theorem combine_cases (c : Conjunction) (parts : List Condition) :
    (∃ part, parts = [part]) ∨ combine c parts = .group c parts := by
  match parts with
  | [] => exact .inr rfl
  | [part] => exact .inl ⟨part, rfl⟩
  | _ :: _ :: _ => exact .inr rfl

/-- Equality asks one thing of its column. -/
theorem equality_cases (glyph : Char) (col : ColumnRef) (equal : Bool) (l : Literal) :
    equality glyph col equal l = .isNull col ∨ equality glyph col equal l = .isNotNull col
      ∨ ∃ relation value, equality glyph col equal l = .test col relation value := by
  unfold equality
  split
  · cases equal with
    | true => exact .inl rfl
    | false => exact .inr (.inl rfl)
  · split
    · exact .inr (.inr ⟨_, _, rfl⟩)
    · exact .inr (.inr ⟨_, _, rfl⟩)

theorem ofComparison_eq (glyph : Char) (t : Table) (c : Comparison) :
    ofComparison glyph t c = column t c.field >>= fun col => ofColumn glyph col c := by
  rw [ofComparison]
  cases column t c.field <;> rfl

theorem compiles (glyph : Char) (t : Table) :
    Predicate.Compiles (ofComparison glyph t) Condition.group (ofPredicate glyph t)
      (ofPredicates glyph t) where
  compare _ := rfl
  group c members := by
    rw [ofPredicate]
    cases ofPredicates glyph t members <;> rfl
  nil := rfl
  cons p ps := by
    rw [ofPredicates]
    cases ofPredicate glyph t p with
    | error e => rfl
    | ok part => cases ofPredicates glyph t ps <;> rfl

theorem ofComparison_ok {c : Comparison} {cond : Condition}
    (h : ofComparison glyph t c = .ok cond) :
    ∃ col, t.column? c.field = some col ∧ ofColumn glyph ⟨t.name, col.name⟩ c = .ok cond := by
  rw [ofComparison, column] at h
  cases hcol : t.column? c.field with
  | none => rw [hcol] at h; exact absurd h (by simp)
  | some col =>
    rw [hcol] at h
    exact ⟨col, rfl, h⟩

theorem ofPredicates_ne_nil {ps : List Predicate} {parts : List Condition}
    (h : ofPredicates glyph t ps = .ok parts) (hne : ps ≠ []) : parts ≠ [] :=
  (compiles glyph t).ne_nil h hne

/-- Only a statement without predicates has no filter. -/
theorem ofStatement_ok {s : Statement} {filter : Option Condition}
    (h : ofStatement glyph t s = .ok filter) :
    ∃ parts, ofPredicates glyph t s.predicates = .ok parts
      ∧ (s.predicates = [] ∧ filter = none
        ∨ s.predicates ≠ [] ∧ filter = some (combine s.conjunction parts)) := by
  rw [ofStatement] at h
  cases hps : ofPredicates glyph t s.predicates with
  | error e => rw [hps] at h; exact absurd h (by simp)
  | ok parts =>
    rw [hps] at h
    refine ⟨parts, rfl, ?_⟩
    by_cases hne : s.predicates = []
    · rw [hne] at hps
      cases hps
      exact .inl ⟨hne, (Except.ok.inj h).symm⟩
    · obtain ⟨part, rest, rfl⟩ := List.exists_cons_of_ne_nil (ofPredicates_ne_nil hps hne)
      exact .inr ⟨hne, (Except.ok.inj h).symm⟩

end Condition

theorem Select.ofStatement_ok {s : Statement} {q : Select}
    (h : Select.ofStatement glyph t s = .ok q) :
    ∃ filter requested, Condition.ofStatement glyph t s = .ok filter
      ∧ requestedOrder t s.order = .ok requested
      ∧ q = {
          table := t.name
          filter
          order := requested ++ keyOrder t s.order
          limit := s.page.maxRows
          offset := s.page.offset } := by
  obtain ⟨filter, hfilter, h⟩ := bind_ok h
  obtain ⟨requested, horder, h⟩ := bind_ok h
  exact ⟨filter, requested, hfilter, horder, (Except.ok.inj h).symm⟩

end Rql.Sql
