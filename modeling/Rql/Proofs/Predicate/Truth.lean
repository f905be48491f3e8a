import Rql.Statement

/-!
# What predicates say

An assignment `v : Comparison → Bool` says which comparisons hold of some record. It decides every
predicate, from the leaves up: a group under `and` holds if all of its members do, a group under `or`
if one of them does. What a compiler makes of a statement is right if it says the same under every
assignment.

Taking apart inner groups of one conjunction changes the list of predicates but not what it says
(`combine_flattenMembers`), so under `and` the conjuncts of a statement stand for the statement.

The second half is about shape: the number of values that operators take, and groups that are not
empty. Every compiler may count on the first, and some need the second.
-/

namespace Rql

namespace Conjunction

/-- What members say together. -/
def combine : Conjunction → List Bool → Bool
  | .and, values => values.all id
  | .or, values => values.any id

@[simp] theorem combine_singleton (c : Conjunction) (b : Bool) : c.combine [b] = b := by
  cases c <;> simp [combine]

theorem combine_append (c : Conjunction) (as bs : List Bool) :
    c.combine (as ++ bs) = c.combine [c.combine as, c.combine bs] := by
  cases c <;> simp [combine]

theorem combine_cons (c : Conjunction) (b : Bool) (bs : List Bool) :
    c.combine (b :: bs) = c.combine [b, c.combine bs] := by
  cases c <;> simp [combine]

theorem combine_flatMap {α : Type} (c : Conjunction) (f : α → List Bool) (xs : List α) :
    c.combine (xs.flatMap f) = c.combine (xs.map fun x => c.combine (f x)) := by
  induction xs with
  | nil => rfl
  | cons x xs ih => rw [List.flatMap_cons, combine_append, ih, List.map_cons, ← combine_cons]

/-- The order of the members does not matter. -/
theorem combine_of_perm {as bs : List Bool} (h : as.Perm bs) (c : Conjunction) :
    c.combine as = c.combine bs := by
  cases c with
  | and => exact h.all_eq
  | or => exact h.any_eq

end Conjunction

namespace Predicate

mutual

/-- The predicate holds where `v` says which comparisons do. -/
def holds (v : Comparison → Bool) : Predicate → Bool
  | .compare c => v c
  | .group conjunction members => conjunction.combine (truths v members)

/-- Which of the members hold. -/
def truths (v : Comparison → Bool) : List Predicate → List Bool
  | [] => []
  | member :: rest => holds v member :: truths v rest

end

/-- What predicates say together. Where there are none, nothing is asked. -/
def holdTogether (v : Comparison → Bool) (conjunction : Conjunction) (ps : List Predicate) : Bool :=
  ps.isEmpty || conjunction.combine (truths v ps)

theorem holdTogether_of_ne_nil (v : Comparison → Bool) (conjunction : Conjunction)
    {ps : List Predicate} (hne : ps ≠ []) :
    holdTogether v conjunction ps = conjunction.combine (truths v ps) := by
  rw [holdTogether, List.isEmpty_eq_false_iff.mpr hne, Bool.false_or]

theorem truths_eq_map (v : Comparison → Bool) (ps : List Predicate) :
    truths v ps = ps.map (holds v) := by
  induction ps with
  | nil => rfl
  | cons p ps ih => rw [truths, ih, List.map_cons]

theorem truths_append (v : Comparison → Bool) (ps qs : List Predicate) :
    truths v (ps ++ qs) = truths v ps ++ truths v qs := by
  rw [truths_eq_map, truths_eq_map, truths_eq_map, List.map_append]

theorem combine_and_truths (v : Comparison → Bool) (ps : List Predicate) :
    Conjunction.combine .and (truths v ps) = ps.all (holds v) := by
  rw [truths_eq_map, Conjunction.combine, List.all_map]
  rfl

theorem holdTogether_and (v : Comparison → Bool) (ps : List Predicate) :
    holdTogether v .and ps = ps.all (holds v) := by
  rw [holdTogether, combine_and_truths]
  cases ps <;> simp

end Predicate

/-- The statement asks for records of which `v` says which comparisons hold. -/
def Statement.holds (v : Comparison → Bool) (s : Statement) : Bool :=
  Predicate.holdTogether v s.conjunction s.predicates

/-! ## Taking groups apart -/

namespace Predicate

mutual

theorem combine_flatten (v : Comparison → Bool) (c : Conjunction) :
    (p : Predicate) → c.combine (truths v (flatten c p)) = holds v p
  | .compare d => by
      rw [flatten, truths, truths, Conjunction.combine_singleton]
  | .group other members => by
      rw [flatten]
      by_cases h : other = c
      · subst h
        rw [if_pos rfl, combine_flattenMembers v other members, holds]
      · rw [if_neg h, truths, truths, Conjunction.combine_singleton]

/-- **Taking groups apart keeps what members say together.** -/
theorem combine_flattenMembers (v : Comparison → Bool) (c : Conjunction) :
    (ps : List Predicate) → c.combine (truths v (flattenMembers c ps)) = c.combine (truths v ps)
  | [] => rfl
  | p :: rest => by
      rw [flattenMembers, truths_append, Conjunction.combine_append, combine_flatten v c p,
        combine_flattenMembers v c rest, truths, ← Conjunction.combine_cons]

end

theorem comparisonsOfMembers_append (ps qs : List Predicate) :
    comparisonsOfMembers (ps ++ qs) = comparisonsOfMembers ps ++ comparisonsOfMembers qs := by
  induction ps with
  | nil => rfl
  | cons p ps ih =>
    rw [List.cons_append, comparisonsOfMembers, comparisonsOfMembers, ih, List.append_assoc]

mutual

theorem comparisonsOfMembers_flatten (c : Conjunction) :
    (p : Predicate) → comparisonsOfMembers (flatten c p) = comparisons p
  | .compare d => by rw [flatten, comparisonsOfMembers, comparisonsOfMembers, List.append_nil]
  | .group other members => by
      rw [flatten]
      by_cases h : other = c
      · rw [if_pos h, comparisonsOfMembers_flattenMembers c members, comparisons]
      · rw [if_neg h, comparisonsOfMembers, comparisonsOfMembers, List.append_nil]

/-- Taking groups apart loses, repeats and moves no comparison. -/
theorem comparisonsOfMembers_flattenMembers (c : Conjunction) :
    (ps : List Predicate) → comparisonsOfMembers (flattenMembers c ps) = comparisonsOfMembers ps
  | [] => rfl
  | p :: rest => by
      rw [flattenMembers, comparisonsOfMembers_append, comparisonsOfMembers_flatten c p,
        comparisonsOfMembers_flattenMembers c rest, comparisonsOfMembers]

end

theorem forall_comparisonsOfMembers {P : Comparison → Prop} {ps : List Predicate} :
    (∀ c ∈ comparisonsOfMembers ps, P c) ↔ ∀ p ∈ ps, ∀ c ∈ p.comparisons, P c := by
  induction ps with
  | nil => simp [comparisonsOfMembers]
  | cons p ps ih => rw [comparisonsOfMembers, List.forall_mem_append, ih, List.forall_mem_cons]

/-- Members in another order have the same comparisons. -/
theorem comparisonsOfMembers_perm {ps qs : List Predicate} (h : ps.Perm qs) :
    (comparisonsOfMembers ps).Perm (comparisonsOfMembers qs) := by
  induction h with
  | nil => exact .nil
  | cons p _ ih => exact ih.append_left p.comparisons
  | swap p q ps =>
    simp only [comparisonsOfMembers, ← List.append_assoc]
    exact List.perm_append_comm.append_right (comparisonsOfMembers ps)
  | trans _ _ ih ih' => exact ih.trans ih'

end Predicate

namespace Statement

/-- Under `and` the conjuncts say what the statement says. -/
theorem all_conjuncts {s : Statement} (v : Comparison → Bool) (h : s.conjunction = .and) :
    s.conjuncts.all (Predicate.holds v) = s.holds v := by
  have hc : s.conjuncts = Predicate.flattenMembers .and s.predicates := by
    rw [conjuncts, h]
  rw [holds, h, Predicate.holdTogether_and, hc, ← Predicate.combine_and_truths,
    Predicate.combine_flattenMembers, Predicate.combine_and_truths]

theorem conjuncts_or {s : Statement} (h : s.conjunction = .or) : s.conjuncts = [] := by
  rw [conjuncts, h]

/-- Only under `and` are there conjuncts. -/
theorem conjunction_of_mem_conjuncts {s : Statement} {p : Predicate} (h : p ∈ s.conjuncts) :
    s.conjunction = .and := by
  cases hc : s.conjunction with
  | and => rfl
  | or => rw [conjuncts_or hc] at h; exact absurd h List.not_mem_nil

theorem comparisonsOfMembers_conjuncts {s : Statement} (h : s.conjunction = .and) :
    Predicate.comparisonsOfMembers s.conjuncts = s.comparisons := by
  rw [conjuncts, h, Predicate.comparisonsOfMembers_flattenMembers, comparisons]

/-- The comparisons of a conjunct are comparisons of the statement. -/
theorem comparisons_subset_of_mem_conjuncts {s : Statement} {p : Predicate} (h : p ∈ s.conjuncts) :
    p.comparisons ⊆ s.comparisons := by
  have hall : ∀ c ∈ Predicate.comparisonsOfMembers s.conjuncts, c ∈ s.comparisons := by
    rw [comparisonsOfMembers_conjuncts (conjunction_of_mem_conjuncts h)]
    exact fun c hmem => hmem
  exact fun c hmem => Predicate.forall_comparisonsOfMembers.mp hall p h c hmem

/-- A comparison among the conjuncts is one of the statement. -/
theorem mem_comparisons_of_mem_conjuncts {s : Statement} {c : Comparison}
    (h : Predicate.compare c ∈ s.conjuncts) : c ∈ s.comparisons :=
  comparisons_subset_of_mem_conjuncts h (List.mem_singleton.mpr rfl)

end Statement

/-! ## Shape -/

/-- The operator takes as many values as the comparison has. -/
def Comparison.hasArity (c : Comparison) : Bool :=
  c.op.arity.accepts c.values.length

theorem eq_singleton_of_hasArity {c : Comparison} (h : c.hasArity = true)
    (hop : c.op.arity = .exactly 1) : ∃ l, c.values = [l] := by
  rw [Comparison.hasArity, hop] at h
  exact List.length_eq_one_iff.mp (by simpa [Arity.accepts] using h)

theorem ne_nil_of_hasArity {c : Comparison} (h : c.hasArity = true)
    (hop : c.op.arity = .atLeast 1) : c.values ≠ [] := by
  rw [Comparison.hasArity, hop] at h
  intro he
  rw [he] at h
  exact absurd h (by decide)

/-- Every operator of the statement takes as many values as it has. -/
def Statement.hasArities (s : Statement) : Bool :=
  s.comparisons.all Comparison.hasArity

namespace Predicate

mutual

/-- Every operator takes as many values as it has, and no group is empty. -/
def wellFormed : Predicate → Bool
  | .compare c => c.hasArity
  | .group _ members => !members.isEmpty && wellFormedMembers members

/-- All members are well formed. -/
def wellFormedMembers : List Predicate → Bool
  | [] => true
  | member :: rest => wellFormed member && wellFormedMembers rest

end

theorem wellFormedMembers_cons {p : Predicate} {ps : List Predicate} :
    wellFormedMembers (p :: ps) = true ↔ p.wellFormed = true ∧ wellFormedMembers ps = true := by
  rw [wellFormedMembers, Bool.and_eq_true]

theorem wellFormed_group {conjunction : Conjunction} {ps : List Predicate} :
    (group conjunction ps).wellFormed = true ↔ ps ≠ [] ∧ wellFormedMembers ps = true := by
  rw [wellFormed, Bool.and_eq_true, Bool.not_eq_true', List.isEmpty_eq_false_iff]

theorem wellFormedMembers_iff {ps : List Predicate} :
    wellFormedMembers ps = true ↔ ∀ p ∈ ps, p.wellFormed = true := by
  induction ps with
  | nil => simp [wellFormedMembers]
  | cons p ps ih => rw [wellFormedMembers_cons, ih, List.forall_mem_cons]

theorem wellFormed_group_iff {conjunction : Conjunction} {ps : List Predicate} :
    (group conjunction ps).wellFormed = true ↔ ps ≠ [] ∧ ∀ p ∈ ps, p.wellFormed = true := by
  rw [wellFormed_group, wellFormedMembers_iff]

mutual

/-- Well formed predicates have as many values as their operators take, at any depth. -/
theorem hasArity_of_wellFormed : (p : Predicate) → p.wellFormed = true →
    ∀ c ∈ p.comparisons, c.hasArity = true
  | .compare _, h => List.forall_mem_singleton.mpr h
  | .group _ members, h => hasArity_of_wellFormedMembers members (wellFormed_group.mp h).2

theorem hasArity_of_wellFormedMembers : (ps : List Predicate) → wellFormedMembers ps = true →
    ∀ c ∈ comparisonsOfMembers ps, c.hasArity = true
  | [], _ => fun _ hc => absurd hc List.not_mem_nil
  | p :: ps, h => by
      obtain ⟨hp, hps⟩ := wellFormedMembers_cons.mp h
      rw [comparisonsOfMembers, List.forall_mem_append]
      exact ⟨hasArity_of_wellFormed p hp, hasArity_of_wellFormedMembers ps hps⟩

end

mutual

theorem wellFormed_of_mem_flatten (c : Conjunction) : (p : Predicate) → p.wellFormed = true →
    ∀ q ∈ flatten c p, q.wellFormed = true
  | .compare _, h => List.forall_mem_singleton.mpr h
  | .group other members, h => by
      rw [flatten]
      by_cases hother : other = c
      · rw [if_pos hother]
        exact wellFormed_of_mem_flattenMembers c members (wellFormed_group.mp h).2
      · rw [if_neg hother]
        exact List.forall_mem_singleton.mpr h

/-- What is left of well formed groups is well formed. -/
theorem wellFormed_of_mem_flattenMembers (c : Conjunction) : (ps : List Predicate) →
    wellFormedMembers ps = true → ∀ q ∈ flattenMembers c ps, q.wellFormed = true
  | [], _ => fun _ hq => absurd hq List.not_mem_nil
  | p :: ps, h => by
      obtain ⟨hp, hps⟩ := wellFormedMembers_cons.mp h
      rw [flattenMembers, List.forall_mem_append]
      exact ⟨wellFormed_of_mem_flatten c p hp, wellFormed_of_mem_flattenMembers c ps hps⟩

end

end Predicate

namespace Statement

/-- All predicates of the statement are well formed. -/
def wellFormed (s : Statement) : Bool :=
  Predicate.wellFormedMembers s.predicates

theorem wellFormed_of_mem_conjuncts {s : Statement} (h : s.wellFormed = true) {p : Predicate}
    (hp : p ∈ s.conjuncts) : p.wellFormed = true := by
  rw [conjuncts, conjunction_of_mem_conjuncts hp] at hp
  exact Predicate.wellFormed_of_mem_flattenMembers .and s.predicates h p hp

end Statement

end Rql
