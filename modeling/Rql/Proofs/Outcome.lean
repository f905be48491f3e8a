import Mathlib.Data.List.Forall2

/-!
# Steps that may refuse

What a run of steps gave, if none of them refused: each step gave something, and the next one went on
from there. A refusal is passed on as it is.
-/

namespace Rql

variable {ε α β : Type}

/-- Takes one step off a run that ended well. -/
theorem bind_ok {x : Except ε α} {f : α → Except ε β} {b : β} (h : (x >>= f) = .ok b) :
    ∃ a, x = .ok a ∧ f a = .ok b := by
  cases x with
  | error e => exact absurd h (by simp [bind, Except.bind])
  | ok a => exact ⟨a, rfl, h⟩

theorem map_ok {x : Except ε α} {f : α → β} {b : β} (h : x.map f = .ok b) :
    ∃ a, x = .ok a ∧ f a = b := by
  cases x with
  | error e => exact absurd h (by simp [Except.map])
  | ok a => exact ⟨a, rfl, Except.ok.inj h⟩

theorem mapError_ok {ε' : Type} {x : Except ε α} {f : ε → ε'} {a : α} (h : x.mapError f = .ok a) :
    x = .ok a := by
  cases x with
  | error e =>
    have h : Except.error (f e) = Except.ok a := h
    exact absurd h (by simp)
  | ok b => exact congrArg Except.ok (Except.ok.inj h)

theorem throw_ne_ok {e : ε} {a : α} : (throw e : Except ε α) ≠ .ok a := by
  intro h
  have h : Except.error e = Except.ok a := h
  exact absurd h (by simp)

/-- Two runs that give the same as far as `f` and `g` tell. -/
theorem map_eq_map {α' : Type} {x : Except ε α} {y : Except ε α'} {f : α → β} {g : α' → β}
    (h : x.map f = y.map g) :
    (∃ e, x = .error e ∧ y = .error e) ∨ ∃ a b, x = .ok a ∧ y = .ok b ∧ f a = g b := by
  cases x with
  | error e =>
    cases y with
    | error e' => exact .inl ⟨e, rfl, congrArg Except.error (Except.error.inj h).symm⟩
    | ok b => exact absurd h (by simp [Except.map])
  | ok a =>
    cases y with
    | error e => exact absurd h (by simp [Except.map])
    | ok b => exact .inr ⟨a, b, rfl, rfl, Except.ok.inj h⟩

theorem ok_of_toOption {x : Except ε α} {a : α} (h : x.toOption = some a) : x = .ok a := by
  cases x with
  | error e => exact absurd h (by simp [Except.toOption])
  | ok b => exact congrArg Except.ok (Option.some.inj h)

theorem exists_map_ok_iff {x : Except ε α} {f : α → β} :
    (∃ b, x.map f = .ok b) ↔ ∃ a, x = .ok a := by
  constructor
  · rintro ⟨b, h⟩
    obtain ⟨a, ha, -⟩ := map_ok h
    exact ⟨a, ha⟩
  · rintro ⟨a, rfl⟩
    exact ⟨f a, rfl⟩

theorem exists_mapError_ok_iff {ε' : Type} {x : Except ε α} {f : ε → ε'} :
    (∃ a, x.mapError f = .ok a) ↔ ∃ a, x = .ok a := by
  constructor
  · rintro ⟨a, h⟩
    exact ⟨a, mapError_ok h⟩
  · rintro ⟨a, rfl⟩
    exact ⟨a, rfl⟩

/-! ## One step for each entry of a list -/

theorem mapM_cons_ok {f : α → Except ε β} {x : α} {xs : List α} {ys : List β}
    (h : (x :: xs).mapM f = .ok ys) :
    ∃ y rest, f x = .ok y ∧ xs.mapM f = .ok rest ∧ ys = y :: rest := by
  rw [List.mapM_cons] at h
  obtain ⟨y, hy, h⟩ := bind_ok h
  obtain ⟨rest, hrest, h⟩ := bind_ok h
  exact ⟨y, rest, hy, hrest, (Except.ok.inj h).symm⟩

/-- Whatever the steps gave, one of them gave it. -/
theorem exists_of_mem_mapM {f : α → Except ε β} {xs : List α} {ys : List β}
    (h : xs.mapM f = .ok ys) {y : β} (hy : y ∈ ys) : ∃ x ∈ xs, f x = .ok y := by
  induction xs generalizing ys with
  | nil =>
    rw [← Except.ok.inj h] at hy
    exact absurd hy List.not_mem_nil
  | cons x xs ih =>
    obtain ⟨z, rest, hz, hrest, rfl⟩ := mapM_cons_ok h
    rcases List.mem_cons.mp hy with rfl | hy
    · exact ⟨x, List.mem_cons_self, hz⟩
    · obtain ⟨w, hw, hwy⟩ := ih hrest hy
      exact ⟨w, List.mem_cons_of_mem x hw, hwy⟩

/-- Each of the steps gave something. -/
theorem exists_mem_of_mapM {f : α → Except ε β} {xs : List α} {ys : List β}
    (h : xs.mapM f = .ok ys) {x : α} (hx : x ∈ xs) : ∃ y ∈ ys, f x = .ok y := by
  induction xs generalizing ys with
  | nil => exact absurd hx List.not_mem_nil
  | cons w xs ih =>
    obtain ⟨y, rest, hy, hrest, rfl⟩ := mapM_cons_ok h
    rcases List.mem_cons.mp hx with rfl | hx
    · exact ⟨y, List.mem_cons_self, hy⟩
    · obtain ⟨z, hz, hxz⟩ := ih hrest hx
      exact ⟨z, List.mem_cons_of_mem y hz, hxz⟩

theorem exists_ok_of_mapM {f : α → Except ε β} {xs : List α} {ys : List β}
    (h : xs.mapM f = .ok ys) {x : α} (hx : x ∈ xs) : ∃ y, f x = .ok y := by
  obtain ⟨y, -, hy⟩ := exists_mem_of_mapM h hx
  exact ⟨y, hy⟩

/-- What each step has to do with what it gave. -/
theorem forall₂_of_mapM {f : α → Except ε β} {R : α → β → Prop} {xs : List α} {ys : List β}
    (h : xs.mapM f = .ok ys) (hR : ∀ x ∈ xs, ∀ y, f x = .ok y → R x y) : List.Forall₂ R xs ys := by
  induction xs generalizing ys with
  | nil => rw [← Except.ok.inj h]; exact .nil
  | cons x xs ih =>
    obtain ⟨y, rest, hy, hrest, rfl⟩ := mapM_cons_ok h
    exact .cons (hR x List.mem_cons_self y hy)
      (ih hrest fun w hw => hR w (List.mem_cons_of_mem x hw))

/-- A run ends well if each of its steps does. -/
theorem exists_mapM_ok {f : α → Except ε β} {xs : List α} (h : ∀ x ∈ xs, ∃ y, f x = .ok y) :
    ∃ ys, xs.mapM f = .ok ys := by
  induction xs with
  | nil => exact ⟨[], rfl⟩
  | cons x xs ih =>
    obtain ⟨y, hy⟩ := h x List.mem_cons_self
    obtain ⟨ys, hys⟩ := ih fun z hz => h z (List.mem_cons_of_mem x hz)
    exact ⟨y :: ys, by rw [List.mapM_cons, hy, hys]; rfl⟩

theorem exists_mapM_ok_iff {f : α → Except ε β} {xs : List α} :
    (∃ ys, xs.mapM f = .ok ys) ↔ ∀ x ∈ xs, ∃ y, f x = .ok y :=
  ⟨fun ⟨_, h⟩ _ hx => exists_ok_of_mapM h hx, exists_mapM_ok⟩

/-- What the steps gave does not depend on what they would have refused with. -/
theorem mapM_mapError_ok {ε' : Type} {f : α → Except ε β} {g : ε → ε'} {xs : List α} {ys : List β}
    (h : xs.mapM (fun x => (f x).mapError g) = .ok ys) : xs.mapM f = .ok ys := by
  induction xs generalizing ys with
  | nil => exact congrArg Except.ok (Except.ok.inj h)
  | cons x xs ih =>
    obtain ⟨y, rest, hy, hrest, rfl⟩ := mapM_cons_ok h
    rw [List.mapM_cons, mapError_ok hy, ih hrest]
    rfl

theorem mapM_of_forall₂ {f : α → Except ε β} {xs : List α} {ys : List β}
    (h : List.Forall₂ (fun x y => f x = .ok y) xs ys) : xs.mapM f = .ok ys := by
  induction h with
  | nil => rfl
  | cons hx _ ih =>
    rw [List.mapM_cons, hx, ih]
    rfl

/-- Entries may be left out before or after the steps, if what a step gave tells the same of its entry. -/
theorem mapM_filter {f : α → Except ε β} {p : α → Bool} {q : β → Bool} {xs : List α} {ys : List β}
    (hq : ∀ x y, f x = .ok y → q y = p x) (h : xs.mapM f = .ok ys) :
    (xs.filter p).mapM f = .ok (ys.filter q) := by
  induction xs generalizing ys with
  | nil =>
    rw [← Except.ok.inj h]
    rfl
  | cons x xs ih =>
    obtain ⟨y, rest, hy, hrest, rfl⟩ := mapM_cons_ok h
    have htail := ih hrest
    by_cases hp : p x = true
    · rw [List.filter_cons_of_pos hp, List.filter_cons_of_pos ((hq x y hy).trans hp), List.mapM_cons,
        hy, htail]
      rfl
    · rw [List.filter_cons_of_neg hp, List.filter_cons_of_neg (by rw [hq x y hy]; exact hp)]
      exact htail

/-- What is taken from what the steps gave can be taken from the entries. -/
theorem filterMap_of_mapM {γ : Type} {f : α → Except ε β} {what : β → Option γ} {said : α → Option γ}
    {xs : List α} {ys : List β} (hsaid : ∀ x ∈ xs, ∀ y, f x = .ok y → what y = said x)
    (h : xs.mapM f = .ok ys) : ys.filterMap what = xs.filterMap said := by
  induction xs generalizing ys with
  | nil => rw [← Except.ok.inj h]; rfl
  | cons x xs ih =>
    obtain ⟨y, rest, hy, hrest, rfl⟩ := mapM_cons_ok h
    obtain ⟨hx, hxs⟩ := List.forall_mem_cons.mp hsaid
    rw [List.filterMap_cons, List.filterMap_cons, hx y hy, ih hxs hrest]

/-- The step that refuses is the same when steps that do not refuse stand between the others. -/
theorem mapM_error_of_filter {f : α → Except ε β} {p : α → Bool} {xs : List α} {e : ε}
    (hok : ∀ x ∈ xs, p x = false → ∃ y, f x = .ok y) (h : (xs.filter p).mapM f = .error e) :
    xs.mapM f = .error e := by
  induction xs with
  | nil => exact h
  | cons x xs ih =>
    have htail := ih fun y hy => hok y (List.mem_cons_of_mem x hy)
    rw [List.mapM_cons]
    cases hp : p x with
    | true =>
      rw [List.filter_cons_of_pos hp, List.mapM_cons] at h
      cases hx : f x with
      | error e' =>
        rw [hx] at h
        exact h
      | ok y =>
        rw [hx] at h
        cases hrest : (xs.filter p).mapM f with
        | error e' =>
          rw [hrest] at h htail
          rw [htail (congrArg Except.error (Except.error.inj h))]
          rfl
        | ok ys =>
          rw [hrest] at h
          exact absurd h (by simp [bind, Except.bind, pure, Except.pure])
    | false =>
      rw [List.filter_cons_of_neg (by simp [hp])] at h
      obtain ⟨y, hy⟩ := hok x List.mem_cons_self hp
      rw [hy, htail h]
      rfl

/-- Steps of which none refuses. -/
theorem mapM_eq_map {f : α → Except ε β} {g : α → β} {xs : List α}
    (h : ∀ x ∈ xs, f x = .ok (g x)) : xs.mapM f = .ok (xs.map g) :=
  mapM_of_forall₂ (List.forall₂_map_right_iff.mpr (List.forall₂_same.mpr h))

/-- Steps of which each gives what it was given. -/
theorem mapM_eq_self {f : α → Except ε α} {xs : List α} (h : ∀ x ∈ xs, f x = .ok x) :
    xs.mapM f = .ok xs :=
  (mapM_eq_map h).trans (congrArg Except.ok (List.map_id xs))

/-! ## What a run refuses with -/

/-- What the step refuses with, if it does. -/
def refusal? : Except ε α → Option ε
  | .error e => some e
  | .ok _ => none

theorem refusal?_eq_some_iff {x : Except ε α} {e : ε} : refusal? x = some e ↔ x = .error e := by
  cases x <;> simp [refusal?]

theorem refusal?_eq_none_iff {x : Except ε α} : refusal? x = none ↔ ∃ a, x = .ok a := by
  cases x <;> simp [refusal?]

theorem exists_error_iff {x : Except ε α} : (∃ e, x = .error e) ↔ ¬∃ a, x = .ok a := by
  cases x <;> simp

theorem refusal?_map (x : Except ε α) (f : α → β) : refusal? (x.map f) = refusal? x := by
  cases x <;> rfl

/-- Of two steps the first one decides. -/
theorem refusal?_bind_map {γ : Type} (x : Except ε α) (y : Except ε β) (f : α → β → γ) :
    refusal? (x >>= fun a => y.map (f a)) = (refusal? x).or (refusal? y) := by
  cases x with
  | error e => rfl
  | ok a => exact refusal?_map y (f a)

theorem refusal?_bind_pure {x : Except ε α} {f : α → Except ε β} (hf : ∀ a, ∃ b, f a = .ok b) :
    refusal? (x >>= f) = refusal? x := by
  cases x with
  | error e => rfl
  | ok a => exact refusal?_eq_none_iff.mpr (hf a)

/-- Of many steps the first that refuses decides. -/
theorem refusal?_mapM (f : α → Except ε β) (xs : List α) :
    refusal? (xs.mapM f) = xs.findSome? fun x => refusal? (f x) := by
  induction xs with
  | nil => rfl
  | cons x xs ih =>
    rw [List.mapM_cons, List.findSome?_cons]
    cases f x with
    | error e => rfl
    | ok y => exact (refusal?_bind_pure fun ys => ⟨y :: ys, rfl⟩).trans ih

/-! ## Reasons -/

/-- If the step refuses, it does so for a reason of this kind. -/
def RefusesBy (kind : ε → Prop) (x : Except ε α) : Prop :=
  ∀ e, x = .error e → kind e

namespace RefusesBy

variable {kind : ε → Prop}

theorem ok (a : α) : RefusesBy kind (.ok a) :=
  fun _ h => absurd h (by simp)

theorem error {e : ε} (h : kind e) : RefusesBy kind (.error e : Except ε α) :=
  fun _ he => Except.error.inj he ▸ h

theorem bind {x : Except ε α} {f : α → Except ε β} (hx : RefusesBy kind x)
    (hf : ∀ a, x = .ok a → RefusesBy kind (f a)) : RefusesBy kind (x >>= f) := by
  cases x with
  | error e => exact error (hx e rfl)
  | ok a => exact hf a rfl

theorem map {x : Except ε α} (hx : RefusesBy kind x) (f : α → β) : RefusesBy kind (x.map f) := by
  cases x with
  | error e => exact error (hx e rfl)
  | ok a => exact ok (f a)

theorem mapError {ε' : Type} {kind' : ε' → Prop} {x : Except ε α} {f : ε → ε'}
    (hx : RefusesBy (fun e => kind' (f e)) x) : RefusesBy kind' (x.mapError f) := by
  cases x with
  | error e => exact error (hx e rfl)
  | ok a => exact ok a

theorem mapM {f : α → Except ε β} {xs : List α} (h : ∀ x ∈ xs, RefusesBy kind (f x)) :
    RefusesBy kind (xs.mapM f) := by
  induction xs with
  | nil => exact ok []
  | cons x xs ih =>
    rw [List.mapM_cons]
    exact (h x List.mem_cons_self).bind fun _ _ =>
      (ih fun y hy => h y (List.mem_cons_of_mem x hy)).bind fun _ _ => ok _

end RefusesBy

end Rql
