import Rql.Proofs.Outcome
import Rql.Search.Request

/-!
# What folding does to members

Members side by side are folded into slots, and the members of a nested slot are folded again below
its path. The facts about one folding come first: it regroups the members and loses none
(`perm_flatMap_members`), and every member is in a slot that is right for it (`fits_of_mem_slots`).

`below_induction` goes down the paths: what holds of members if it holds of every group among them
holds of all members. With `clausesBelow_eq_mapM`, which opens one level of `clausesBelow`, everything
about compiled members is proved by it.
-/

namespace Rql.Search

variable {conjunction : Conjunction} {parent path : List Char} {members group : List Member}

/-! ## One folding -/

theorem perm_flatMap_members (parent : List Char) (members : List Member) :
    ((slots parent members).flatMap Slot.members).Perm members := by
  fun_induction slots parent members with
  | case1 => exact .nil
  | case2 m rest hm ih => exact ih.cons m
  | case3 m rest found hm ih =>
    have hsplit := List.filter_append_perm (fun m => m.pathBelow? parent == some found) rest
    rw [List.flatMap_cons, Slot.members, List.cons_append]
    exact ((ih.append_left (membersAt parent found rest)).trans hsplit).cons m

/-- The slot is right for its members: one that lies in no object below `parent` has a slot of its own,
and a nested slot holds members at its path only, at least one. -/
def Slot.Fits (parent : List Char) : Slot → Prop
  | .single m => m.pathBelow? parent = none
  | .nested path group => group ≠ [] ∧ ∀ m ∈ group, m.pathBelow? parent = some path

theorem fits_of_mem_slots {slot : Slot} (h : slot ∈ slots parent members) : slot.Fits parent := by
  fun_induction slots parent members with
  | case1 => exact absurd h List.not_mem_nil
  | case2 first rest hfirst ih =>
    rcases List.mem_cons.mp h with rfl | hmem
    · exact hfirst
    · exact ih hmem
  | case3 first rest found hfirst ih =>
    rcases List.mem_cons.mp h with rfl | hmem
    · refine ⟨List.cons_ne_nil first _, fun m hm => ?_⟩
      rcases List.mem_cons.mp hm with rfl | hrest
      · exact hfirst
      · simpa using (List.mem_filter.mp hrest).2
    · exact ih hmem

theorem mem_of_mem_slot {slot : Slot} (h : slot ∈ slots parent members) {m : Member}
    (hm : m ∈ slot.members) : m ∈ members :=
  (perm_flatMap_members parent members).mem_iff.mp (List.mem_flatMap.mpr ⟨slot, h, hm⟩)

/-! ## Down the paths -/

/-- **Induction down the paths.** The paths of a group are longer than that of the members it is
among, and no path is longer than the fields. -/
theorem below_induction {P : List Char → List Member → Prop}
    (step : ∀ parent members,
      (∀ path group, Slot.nested path group ∈ slots parent members → P path group) →
        P parent members)
    (parent : List Char) (members : List Member) : P parent members :=
  step parent members fun path group _ => below_induction step path group
termination_by room parent members
decreasing_by exact room_lt_of_mem_slots ‹_›

/-- The clause of a slot. -/
def slotClause (conjunction : Conjunction) : Slot → Except Error Clause
  | .single m => m.clause
  | .nested path group =>
    (clausesBelow conjunction path group).map fun clauses =>
      .positive (.nested (.ofList path) (combineOrAlone conjunction (group.length == 1) clauses))

theorem clausesBelow_eq_mapM (conjunction : Conjunction) (parent : List Char)
    (members : List Member) :
    clausesBelow conjunction parent members = (slots parent members).mapM (slotClause conjunction) := by
  rw [clausesBelow, List.mapM_subtype (g := slotClause conjunction), List.unattach_attach]
  intro slot hslot
  cases slot <;> rfl

theorem clauses_ne_nil {clauses : List Clause}
    (h : clausesBelow conjunction parent members = .ok clauses) (hne : members ≠ []) :
    clauses ≠ [] := by
  rintro rfl
  rw [clausesBelow_eq_mapM] at h
  have hnone := List.forall₂_nil_right_iff.mp (forall₂_of_mapM h fun _ _ _ _ => trivial)
  have hperm := perm_flatMap_members parent members
  rw [hnone] at hperm
  exact hne hperm.nil_eq.symm

/-- **Members have clauses together if each of them has one.** -/
theorem exists_clausesBelow (h : ∀ m ∈ members, ∃ clause, m.clause = .ok clause) :
    ∃ clauses, clausesBelow conjunction parent members = .ok clauses := by
  induction parent, members using below_induction with
  | step parent members ih =>
    rw [clausesBelow_eq_mapM]
    apply exists_mapM_ok
    intro slot hslot
    cases slot with
    | single m => exact h m (mem_of_mem_slot hslot (List.mem_singleton.mpr rfl))
    | nested path group =>
      obtain ⟨clauses, hclauses⟩ := ih path group hslot fun m hm => h m (mem_of_mem_slot hslot hm)
      exact ⟨_, by rw [slotClause, hclauses]; rfl⟩

/-- Clauses of members are there only if each of them has one. -/
theorem exists_clause {clauses : List Clause}
    (h : clausesBelow conjunction parent members = .ok clauses) :
    ∀ m ∈ members, ∃ clause, m.clause = .ok clause := by
  induction parent, members using below_induction generalizing clauses with
  | step parent members ih =>
    intro m hm
    obtain ⟨slot, hslot, hmem⟩ := List.mem_flatMap.mp
      ((perm_flatMap_members parent members).mem_iff.mpr hm)
    rw [clausesBelow_eq_mapM] at h
    obtain ⟨clause, hclause⟩ := exists_ok_of_mapM h hslot
    cases slot with
    | single m' =>
      rw [List.mem_singleton.mp hmem]
      exact ⟨clause, hclause⟩
    | nested path group =>
      obtain ⟨inner, hinner, -⟩ := map_ok hclause
      exact ih path group hslot hinner m hmem

/-! ## Statements -/

theorem membersOf_eq_map (glyph : Char) (ps : List Predicate) :
    membersOf glyph ps = ps.map (memberOf glyph) := by
  induction ps with
  | nil => rfl
  | cons p ps ih => rw [membersOf, ih, List.map_cons]

/-- A statement without predicates is no special case. -/
theorem ofStatement_eq_queryOf (glyph : Char) (s : Statement) :
    Query.ofStatement glyph s = queryOf glyph s.conjunction s.predicates := by
  unfold Query.ofStatement
  split
  · rename_i hnil
    rw [hnil, queryOf, membersOf, clausesBelow_eq_mapM, slots]
    cases s.conjunction <;> rfl
  · rfl

end Rql.Search
