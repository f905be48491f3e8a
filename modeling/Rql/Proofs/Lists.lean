import Mathlib.Data.List.Forall2

/-!
# Lists

What the proofs need of lists, whatever the lists hold: the first and the last entry that something is known
of, parts of a list by their places, lists joined with something in between, and lists put together from
pieces.
-/

namespace Rql

variable {ε α β γ : Type}

/-! ## The first and the last -/

/-- What is found last is the last that can be found. -/
theorem foldl_found (p : α → Bool) (xs : List α) (found : Option α) :
    xs.foldl (fun found x => if p x then some x else found) found
      = (xs.filter p).getLast?.or found := by
  induction xs generalizing found with
  | nil => rfl
  | cons x xs ih =>
    rw [List.foldl_cons, ih, List.filter_cons]
    by_cases hx : p x = true
    · rw [if_pos hx, if_pos hx, List.getLast?_cons]
      cases (xs.filter p).getLast? <;> rfl
    · rw [if_neg hx, if_neg hx]

/-- If every entry has something to tell, the last entry tells the last of it. -/
theorem getLast?_filterMap {f : α → Option β} {xs : List α} (h : ∀ x ∈ xs, ∃ y, f x = some y) :
    (xs.filterMap f).getLast? = xs.getLast?.bind f := by
  rcases xs.eq_nil_or_concat with rfl | ⟨front, x, rfl⟩
  · rfl
  · rw [List.concat_eq_append] at h ⊢
    obtain ⟨y, hy⟩ := h x List.mem_concat_self
    simp [hy]

/-- The first entry that has something to tell. -/
theorem findSome?_eq_some_iff_first {f : α → Option ε} {silent tells : α → Prop}
    {xs : List α} {e : ε} (hsilent : ∀ x ∈ xs, f x = none ↔ silent x)
    (htells : ∀ x ∈ xs, f x = some e ↔ tells x) :
    xs.findSome? f = some e
      ↔ ∃ front x back, xs = front ++ x :: back ∧ (∀ y ∈ front, silent y) ∧ tells x := by
  rw [List.findSome?_eq_some_iff]
  constructor
  · rintro ⟨front, x, back, rfl, hx, hfront⟩
    have hmem : x ∈ front ++ x :: back := List.mem_append_right _ List.mem_cons_self
    refine ⟨front, x, back, rfl, fun y hy => ?_, (htells x hmem).mp hx⟩
    exact (hsilent y (List.mem_append_left _ hy)).mp (hfront y hy)
  · rintro ⟨front, x, back, rfl, hfront, hx⟩
    have hmem : x ∈ front ++ x :: back := List.mem_append_right _ List.mem_cons_self
    refine ⟨front, x, back, rfl, (htells x hmem).mpr hx, fun y hy => ?_⟩
    exact (hsilent y (List.mem_append_left _ hy)).mpr (hfront y hy)

/-! ## Places -/

theorem exists_length_of_filled {xs : List α} (h : (!xs.isEmpty) = true) :
    ∃ count, xs.length = count + 1 := by
  cases xs with
  | nil => exact absurd h Bool.false_ne_true
  | cons x xs => exact ⟨xs.length, rfl⟩

theorem idxOf_cons_le_cons [BEq α] [LawfulBEq α] {x : α} {xs ys : List α} (y : α)
    (h : xs.idxOf x ≤ ys.idxOf x) : (y :: xs).idxOf x ≤ (y :: ys).idxOf x := by
  by_cases hy : y = x
  · rw [hy, List.idxOf_cons_self]
    exact Nat.zero_le _
  · rw [List.idxOf_cons_ne _ hy, List.idxOf_cons_ne _ hy]
    exact Nat.succ_le_succ h

/-- What a list holds from a place on, cut in two. -/
theorem prefix_drop_append {xs ys all : List α} {next : Nat} (h : xs ++ ys <+: all.drop next) :
    xs <+: all.drop next ∧ ys <+: all.drop (next + xs.length) := by
  obtain ⟨rest, hrest⟩ := h
  refine ⟨⟨ys ++ rest, by rw [← hrest, List.append_assoc]⟩, rest, ?_⟩
  rw [← List.drop_drop, ← hrest, List.append_assoc, List.drop_left]

theorem getElem?_of_prefix_drop {x : α} {xs all : List α} {next : Nat}
    (h : x :: xs <+: all.drop next) : all[next]? = some x := by
  obtain ⟨rest, hrest⟩ := h
  have hfirst := congrArg List.head? hrest
  rw [List.head?_drop] at hfirst
  exact hfirst.symm

/-! ## Joining -/

theorem map_intercalate (f : α → β) (between : List α) (xss : List (List α)) :
    (between.intercalate xss).map f = (between.map f).intercalate (xss.map (List.map f)) := by
  induction xss with
  | nil => rfl
  | cons xs rest ih =>
    cases rest with
    | nil => rw [List.intercalate_singleton, List.map_singleton, List.intercalate_singleton]
    | cons ys rest =>
      rw [List.intercalate_cons_cons, List.map_append, List.map_append, ih, List.map_cons,
        List.map_cons, List.map_cons, List.intercalate_cons_cons]

theorem mem_intercalate {x between : α} {xss : List (List α)}
    (h : x ∈ [between].intercalate xss) : x = between ∨ ∃ xs ∈ xss, x ∈ xs := by
  induction xss with
  | nil => exact absurd h List.not_mem_nil
  | cons xs rest ih =>
    cases rest with
    | nil =>
      rw [List.intercalate_singleton] at h
      exact .inr ⟨xs, List.mem_cons_self, h⟩
    | cons ys rest =>
      rw [List.intercalate_cons_cons, List.append_assoc, List.mem_append] at h
      rcases h with hfirst | h
      · exact .inr ⟨xs, List.mem_cons_self, hfirst⟩
      · rcases List.mem_append.mp h with hbetween | hrest
        · exact .inl (List.mem_singleton.mp hbetween)
        · rcases ih hrest with hbetween | ⟨zs, hzs, hmem⟩
          · exact .inl hbetween
          · exact .inr ⟨zs, List.mem_cons_of_mem xs hzs, hmem⟩

/-! ## Putting together -/

theorem perm_flatMap_of_forall₂ {f : α → List γ} {g : β → List γ} {xs : List α} {ys : List β}
    (h : List.Forall₂ (fun x y => (g y).Perm (f x)) xs ys) :
    (ys.flatMap g).Perm (xs.flatMap f) := by
  induction h with
  | nil => exact .nil
  | cons hxy _ ih => exact hxy.append ih

theorem length_flatMap_le {f g : α → List β} {xs : List α}
    (h : ∀ x ∈ xs, (f x).length ≤ (g x).length) : (xs.flatMap f).length ≤ (xs.flatMap g).length := by
  induction xs with
  | nil => exact Nat.le_refl 0
  | cons x xs ih =>
    have hx := h x List.mem_cons_self
    have hxs := ih fun y hy => h y (List.mem_cons_of_mem x hy)
    rw [List.flatMap_cons, List.flatMap_cons, List.length_append, List.length_append]
    omega

/-- Two lists put together from pieces, where the pieces of one are no longer than those of the other and yet
the list holds all of the other. -/
theorem eq_of_sublist_flatMap {f g : α → List β} {xs : List α}
    (hle : ∀ x ∈ xs, (f x).length ≤ (g x).length) (h : (xs.flatMap g).Sublist (xs.flatMap f)) :
    ∀ x ∈ xs, f x = g x := by
  induction xs with
  | nil => exact List.forall_mem_nil _
  | cons x xs ih =>
    have hx := hle x List.mem_cons_self
    have hrest : ∀ y ∈ xs, (f y).length ≤ (g y).length := fun y hy =>
      hle y (List.mem_cons_of_mem x hy)
    have hlength := length_flatMap_le hrest
    rw [List.flatMap_cons, List.flatMap_cons] at h
    have hall := h.length_le
    rw [List.length_append, List.length_append] at hall
    -- no piece can be shorter, as there is nothing to make up for it
    have heq := h.eq_of_length (by rw [List.length_append, List.length_append]; omega)
    obtain ⟨hfirst, hothers⟩ := List.append_inj heq (by omega)
    exact List.forall_mem_cons.mpr ⟨hfirst.symm, ih hrest (hothers ▸ List.Sublist.refl _)⟩

end Rql
