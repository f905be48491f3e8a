import Rql.Proofs.Predicate.Truth

/-!
# What the conjuncts of a statement are

Under `and` an inner `and` group says no more than its members side by side, so its members take its
place, however deep such groups lie. An `or` group promises none of its members and stays as it is.

The parts of a predicate are all predicates that stand in it, from the outside in and from left to right.
Taking the groups of one conjunction apart loses these groups and keeps all other parts in their order
(`otherParts_flattenMembers`). Nothing else has to be said of the result. In a list that has none of these
groups on top, the first part is the first member and its own parts come next, so the list can be read off
its parts (`eq_of_otherParts`).
-/

namespace Rql

namespace Predicate

/-- The conjunction of a group. -/
def conjunction? : Predicate → Option Conjunction
  | .compare _ => none
  | .group conjunction _ => some conjunction

mutual

/-- The predicate and all that stands in it, a group before its members. -/
def parts : Predicate → List Predicate
  | .compare c => [.compare c]
  | .group conjunction members => .group conjunction members :: partsOfMembers members

/-- The members and all that stands in them. -/
def partsOfMembers : List Predicate → List Predicate
  | [] => []
  | member :: rest => parts member ++ partsOfMembers rest

end

/-- The parts of the members that are no group of the conjunction: comparisons, and groups of the other
conjunction with all that stands in them. -/
def otherParts (c : Conjunction) (ps : List Predicate) : List Predicate :=
  (partsOfMembers ps).filter fun p => p.conjunction? ≠ some c

variable {c : Conjunction}

theorem partsOfMembers_append (ps qs : List Predicate) :
    partsOfMembers (ps ++ qs) = partsOfMembers ps ++ partsOfMembers qs := by
  induction ps with
  | nil => rfl
  | cons p ps ih => rw [List.cons_append, partsOfMembers, partsOfMembers, ih, List.append_assoc]

@[simp] theorem otherParts_nil (c : Conjunction) : otherParts c [] = [] :=
  rfl

theorem otherParts_append (c : Conjunction) (ps qs : List Predicate) :
    otherParts c (ps ++ qs) = otherParts c ps ++ otherParts c qs := by
  rw [otherParts, partsOfMembers_append, List.filter_append]
  rfl

theorem otherParts_cons (c : Conjunction) (p : Predicate) (ps : List Predicate) :
    otherParts c (p :: ps) = otherParts c [p] ++ otherParts c ps :=
  otherParts_append c [p] ps

/-- A group of the conjunction has the parts of its members. -/
theorem otherParts_group (c : Conjunction) (members : List Predicate) :
    otherParts c [.group c members] = otherParts c members := by
  rw [otherParts, partsOfMembers, parts, partsOfMembers, List.append_nil]
  exact List.filter_cons_of_neg (by simp [conjunction?])

/-- Anything else is the first of its own parts, and these come before all others. -/
theorem exists_otherParts_cons {p : Predicate} (h : p.conjunction? ≠ some c) (ps : List Predicate) :
    ∃ inner, otherParts c (p :: ps) = p :: inner := by
  have hparts : ∃ inner, parts p = p :: inner := by
    cases p with
    | compare d => exact ⟨[], rfl⟩
    | group other members => exact ⟨partsOfMembers members, rfl⟩
  obtain ⟨inner, hinner⟩ := hparts
  rw [otherParts, partsOfMembers, hinner, List.cons_append]
  exact ⟨_, List.filter_cons_of_pos (by simpa using h)⟩

/-! ## What taking apart keeps -/

mutual

theorem conjunction?_of_mem_flatten (c : Conjunction) :
    (p : Predicate) → ∀ q ∈ flatten c p, q.conjunction? ≠ some c
  | .compare d => List.forall_mem_singleton.mpr (by simp [conjunction?])
  | .group other members => by
      rw [flatten]
      by_cases h : other = c
      · rw [if_pos h]
        exact conjunction?_of_mem_flattenMembers c members
      · rw [if_neg h]
        exact List.forall_mem_singleton.mpr (by simpa [conjunction?] using h)

/-- **No group of the conjunction is left on top.** -/
theorem conjunction?_of_mem_flattenMembers (c : Conjunction) :
    (ps : List Predicate) → ∀ q ∈ flattenMembers c ps, q.conjunction? ≠ some c
  | [] => fun _ hq => absurd hq List.not_mem_nil
  | p :: rest => by
      rw [flattenMembers, List.forall_mem_append]
      exact ⟨conjunction?_of_mem_flatten c p, conjunction?_of_mem_flattenMembers c rest⟩

end

mutual

theorem otherParts_flatten (c : Conjunction) :
    (p : Predicate) → otherParts c (flatten c p) = otherParts c [p]
  | .compare d => by rw [flatten]
  | .group other members => by
      rw [flatten]
      by_cases h : other = c
      · rw [if_pos h, h, otherParts_group, otherParts_flattenMembers c members]
      · rw [if_neg h]

/-- **All other parts stay, in their order**, and groups of the other conjunction stay whole. -/
theorem otherParts_flattenMembers (c : Conjunction) :
    (ps : List Predicate) → otherParts c (flattenMembers c ps) = otherParts c ps
  | [] => rfl
  | p :: rest => by
      rw [flattenMembers, otherParts_append, otherParts_flatten c p, otherParts_flattenMembers c rest,
        ← otherParts_cons]

end

/-- **Predicates without groups of the conjunction on top are known by their other parts.** -/
theorem eq_of_otherParts {ps qs : List Predicate} (hps : ∀ p ∈ ps, p.conjunction? ≠ some c)
    (hqs : ∀ q ∈ qs, q.conjunction? ≠ some c) (h : otherParts c ps = otherParts c qs) : ps = qs := by
  induction ps generalizing qs with
  | nil =>
    cases qs with
    | nil => rfl
    | cons q qs =>
      obtain ⟨inner, hinner⟩ := exists_otherParts_cons (hqs q List.mem_cons_self) qs
      rw [otherParts_nil, hinner] at h
      exact absurd h.symm (List.cons_ne_nil q inner)
  | cons p ps ih =>
    obtain ⟨hp, htail⟩ := List.forall_mem_cons.mp hps
    obtain ⟨inner, hinner⟩ := exists_otherParts_cons hp ps
    cases qs with
    | nil =>
      rw [otherParts_nil, hinner] at h
      exact absurd h (List.cons_ne_nil p inner)
    | cons q qs =>
      obtain ⟨hq, htail'⟩ := List.forall_mem_cons.mp hqs
      obtain ⟨inner', hinner'⟩ := exists_otherParts_cons hq qs
      have hpq : p = q := (List.cons.inj (hinner.symm.trans (h.trans hinner'))).1
      subst hpq
      -- equal first members have equal parts, so what follows these parts is equal too
      rw [otherParts_cons c p ps, otherParts_cons c p qs] at h
      have hrest : ps = qs := ih htail htail' (List.append_cancel_left h)
      rw [hrest]

theorem eq_flattenMembers_iff (c : Conjunction) {ps qs : List Predicate} :
    qs = flattenMembers c ps
      ↔ (∀ q ∈ qs, q.conjunction? ≠ some c) ∧ otherParts c qs = otherParts c ps := by
  constructor
  · rintro rfl
    exact ⟨conjunction?_of_mem_flattenMembers c ps, otherParts_flattenMembers c ps⟩
  · rintro ⟨hqs, hparts⟩
    refine eq_of_otherParts hqs (conjunction?_of_mem_flattenMembers c ps) ?_
    rw [hparts, otherParts_flattenMembers]

end Predicate

namespace Statement

/-- **Conjuncts stand for the statement.** Under `and` they are the one list without `and` groups in which
all comparisons and all `or` groups of the statement stand whole and in their order. So they have its
comparisons from left to right, and all of them hold exactly where all of its predicates do. Under `or`
there are none. -/
theorem conjuncts_standFor (s : Statement) :
    (s.conjunction = .and →
      (∀ ps, ps = s.conjuncts ↔ (∀ p ∈ ps, p.conjunction? ≠ some .and)
        ∧ Predicate.otherParts .and ps = Predicate.otherParts .and s.predicates)
      ∧ Predicate.comparisonsOfMembers s.conjuncts = s.comparisons
      ∧ ∀ v, s.conjuncts.all (Predicate.holds v) = s.predicates.all (Predicate.holds v))
    ∧ (s.conjunction = .or → s.conjuncts = []) := by
  refine ⟨fun h => ⟨fun ps => ?_, comparisonsOfMembers_conjuncts h, fun v => ?_⟩, conjuncts_or⟩
  · rw [conjuncts, h]
    exact Predicate.eq_flattenMembers_iff .and
  · rw [all_conjuncts v h, holds, h, Predicate.holdTogether_and]

/-- An `or` group below two `and` groups, with an `and` group of its own, between comparisons. -/
def layered : Statement where
  table := "towns"
  predicates := [
    .group .and [
      .compare ⟨.eq, "a", [.bare "1"]⟩,
      .group .and [.group .or [
        .group .and [.compare ⟨.gt, "b", [.bare "2"]⟩, .compare ⟨.nn, "c", []⟩],
        .compare ⟨.eq, "a", [.bare "1"]⟩]]],
    .compare ⟨.lt, "b", [.bare "3"]⟩]

/-- The two `and` groups are taken apart, the one in the `or` group is not. -/
theorem conjuncts_layered :
    layered.conjunction = .and ∧ layered.conjuncts.map Predicate.token = ["eq", "or", "lt"]
      ∧ (∀ p ∈ layered.conjuncts, p.conjunction? ≠ some .and)
      ∧ Predicate.otherParts .and layered.conjuncts = Predicate.otherParts .and layered.predicates
      ∧ (Predicate.otherParts .and layered.predicates).map Predicate.token
        = ["eq", "or", "gt", "nn", "eq", "lt"]
      ∧ (∀ v, layered.conjuncts.all (Predicate.holds v) = layered.predicates.all (Predicate.holds v))
      ∧ { layered with conjunction := .or }.conjuncts = [] := by
  obtain ⟨hconjuncts, -, hholds⟩ := (conjuncts_standFor layered).1 rfl
  obtain ⟨htop, hparts⟩ := (hconjuncts layered.conjuncts).mp rfl
  exact ⟨rfl, rfl, htop, hparts, by decide, hholds,
    (conjuncts_standFor { layered with conjunction := .or }).2 rfl⟩

end Statement

end Rql
