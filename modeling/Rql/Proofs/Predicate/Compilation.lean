import Rql.Predicate
import Rql.Proofs.Outcome

/-!
# Compilers of predicates

A compiler goes over a predicate from left to right. It compiles each comparison by itself, makes a group of
what it has made of the members, and stops at the first comparison that it refuses. `Compiles` says so,
whatever the compiler makes of a comparison and of a group.

Groups refuse nothing, so the comparisons decide alone: what a predicate is refused with is what the first
of them is refused with (`Compiles.refusal?_members`), and a predicate is compiled if all of them are.
-/

namespace Rql.Predicate

variable {ε α : Type}

/-- `one` compiles predicates and `many` the members of groups, with `leaf` for comparisons and `join` for
what the members have become. -/
structure Compiles (leaf : Comparison → Except ε α) (join : Conjunction → List α → α)
    (one : Predicate → Except ε α) (many : List Predicate → Except ε (List α)) : Prop where
  compare : ∀ c, one (.compare c) = leaf c
  group : ∀ c members, one (.group c members) = (many members).map (join c)
  nil : many [] = .ok []
  cons : ∀ p ps, many (p :: ps) = one p >>= fun a => (many ps).map fun as => a :: as

namespace Compiles

variable {leaf : Comparison → Except ε α} {join : Conjunction → List α → α}
  {one : Predicate → Except ε α} {many : List Predicate → Except ε (List α)}

/-! ## What an accepted predicate went through -/

theorem group_ok (h : Compiles leaf join one many) {c : Conjunction} {members : List Predicate} {a : α}
    (hok : one (.group c members) = .ok a) : ∃ as, many members = .ok as ∧ a = join c as := by
  rw [h.group] at hok
  obtain ⟨as, has, heq⟩ := map_ok hok
  exact ⟨as, has, heq.symm⟩

theorem cons_ok (h : Compiles leaf join one many) {p : Predicate} {ps : List Predicate} {as : List α}
    (hok : many (p :: ps) = .ok as) :
    ∃ b bs, one p = .ok b ∧ many ps = .ok bs ∧ as = b :: bs := by
  rw [h.cons] at hok
  obtain ⟨b, hb, hok⟩ := bind_ok hok
  obtain ⟨bs, hbs, heq⟩ := map_ok hok
  exact ⟨b, bs, hb, hbs, heq.symm⟩

theorem length_eq (h : Compiles leaf join one many) {ps : List Predicate} {as : List α}
    (hok : many ps = .ok as) : as.length = ps.length := by
  induction ps generalizing as with
  | nil =>
    rw [h.nil] at hok
    rw [← Except.ok.inj hok]
    rfl
  | cons p ps ih =>
    obtain ⟨b, bs, -, hbs, rfl⟩ := h.cons_ok hok
    rw [List.length_cons, List.length_cons, ih hbs]

theorem ne_nil (h : Compiles leaf join one many) {ps : List Predicate} {as : List α}
    (hok : many ps = .ok as) (hne : ps ≠ []) : as ≠ [] := by
  rw [← List.length_pos_iff, h.length_eq hok]
  exact List.length_pos_iff.mpr hne

/-! ## What a predicate is refused with -/

mutual

theorem refusal?_predicate (h : Compiles leaf join one many) : (p : Predicate) →
    refusal? (one p) = p.comparisons.findSome? fun c => refusal? (leaf c)
  | .compare c => by rw [h.compare, comparisons, List.findSome?_singleton]
  | .group c members => by
      rw [h.group, refusal?_map, comparisons, refusal?_members h members]

/-- **The first comparison that is refused decides for the whole predicate.** -/
theorem refusal?_members (h : Compiles leaf join one many) : (ps : List Predicate) →
    refusal? (many ps) = (comparisonsOfMembers ps).findSome? fun c => refusal? (leaf c)
  | [] => by rw [h.nil]; rfl
  | p :: ps => by
      rw [h.cons, refusal?_bind_map, refusal?_predicate h p, refusal?_members h ps,
        comparisonsOfMembers, List.findSome?_append]

end

theorem exists_ok_iff (h : Compiles leaf join one many) (ps : List Predicate) :
    (∃ as, many ps = .ok as) ↔ ∀ c ∈ comparisonsOfMembers ps, ∃ a, leaf c = .ok a := by
  rw [← refusal?_eq_none_iff, h.refusal?_members, List.findSome?_eq_none_iff]
  exact forall₂_congr fun c _ => refusal?_eq_none_iff

theorem refusesBy (h : Compiles leaf join one many) {kind : ε → Prop} {ps : List Predicate}
    (hleaf : ∀ c ∈ comparisonsOfMembers ps, RefusesBy kind (leaf c)) : RefusesBy kind (many ps) := by
  intro e he
  rw [← refusal?_eq_some_iff, h.refusal?_members] at he
  obtain ⟨c, hc, hrefused⟩ := List.exists_of_findSome?_eq_some he
  exact hleaf c hc e (refusal?_eq_some_iff.mp hrefused)

/-! ## Compilers that are the same -/

section

variable {one' : Predicate → Except ε α} {many' : List Predicate → Except ε (List α)}

mutual

theorem predicate_eq (h : Compiles leaf join one many) (h' : Compiles leaf join one' many') :
    (p : Predicate) → one p = one' p
  | .compare c => by rw [h.compare, h'.compare]
  | .group c members => by rw [h.group, h'.group, members_eq h h' members]

/-- What is made of comparisons and of groups is all that there is to a compiler. -/
theorem members_eq (h : Compiles leaf join one many) (h' : Compiles leaf join one' many') :
    (ps : List Predicate) → many ps = many' ps
  | [] => by rw [h.nil, h'.nil]
  | p :: ps => by rw [h.cons, h'.cons, predicate_eq h h' p, members_eq h h' ps]

end

end

end Compiles

end Rql.Predicate
