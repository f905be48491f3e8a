import Rql.Comparison
import Rql.Proofs.Lists

/-!
# Patterns

A pattern is a row of symbols: some text, whatever it is, some character, or a character itself. Backends
write patterns as texts in which two characters have a meaning of their own, and every other character
stands for itself (`Wildcards`). There is no way to write one of the two for itself.

An operator of texts asks a text to start with a value, to end with it, to contain it, or to look like it
with a glyph in the places that are left open (`Asks`). Backends are given the value with a wildcard on one
side of it, or on both, or in the places of the glyph (`Wildcards.write`). What such a pattern accepts is
what the operator asks exactly if the value is written with characters that stand for themselves
(`forall_accepts_iff`): otherwise the shortest text that the pattern accepts lacks a character of the value.
-/

namespace Rql

namespace Pattern

/-! ## Symbols -/

/-- A part of a pattern. -/
inductive Symbol where
  /-- Any text. -/
  | any
  /-- Any character. -/
  | one
  | exactly (c : Char)
deriving DecidableEq, Repr

/-- The text consists of what the symbols stand for, one after the other. -/
inductive Matches : List Symbol → List Char → Prop where
  | nil : Matches [] []
  | any (front : List Char) {p : List Symbol} {s : List Char} :
      Matches p s → Matches (.any :: p) (front ++ s)
  | one (c : Char) {p : List Symbol} {s : List Char} : Matches p s → Matches (.one :: p) (c :: s)
  | exactly (c : Char) {p : List Symbol} {s : List Char} :
      Matches p s → Matches (.exactly c :: p) (c :: s)

variable {p q : List Symbol} {s t v : List Char}

theorem Matches.append (h : Matches p s) (h' : Matches q t) : Matches (p ++ q) (s ++ t) := by
  induction h with
  | nil => exact h'
  | any front _ ih =>
    rw [List.append_assoc]
    exact ih.any front
  | one c _ ih => exact ih.one c
  | exactly c _ ih => exact ih.exactly c

theorem matches_append_iff :
    Matches (p ++ q) s ↔ ∃ front back, s = front ++ back ∧ Matches p front ∧ Matches q back := by
  constructor
  · intro h
    induction p generalizing s with
    | nil => exact ⟨[], s, rfl, .nil, h⟩
    | cons symbol p ih =>
      cases h with
      | any first h =>
        obtain ⟨front, back, rfl, hp, hq⟩ := ih h
        exact ⟨first ++ front, back, (List.append_assoc _ _ _).symm, hp.any first, hq⟩
      | one c h =>
        obtain ⟨front, back, rfl, hp, hq⟩ := ih h
        exact ⟨c :: front, back, rfl, hp.one c, hq⟩
      | exactly c h =>
        obtain ⟨front, back, rfl, hp, hq⟩ := ih h
        exact ⟨c :: front, back, rfl, hp.exactly c, hq⟩
  · rintro ⟨front, back, rfl, hp, hq⟩
    exact hp.append hq

theorem matches_any (s : List Char) : Matches [.any] s := by
  have h := Matches.nil.any s
  rwa [List.append_nil] at h

theorem matches_any_cons_iff :
    Matches (.any :: p) s ↔ ∃ front back, s = front ++ back ∧ Matches p back := by
  constructor
  · rintro (- | ⟨front, h⟩)
    exact ⟨front, _, rfl, h⟩
  · rintro ⟨front, back, rfl, h⟩
    exact h.any front

theorem matches_exactly_iff : Matches (v.map .exactly) s ↔ s = v := by
  induction v generalizing s with
  | nil =>
    constructor
    · rintro ⟨⟩
      rfl
    · rintro rfl
      exact .nil
  | cons c v ih =>
    constructor
    · rintro (- | - | - | ⟨_, h⟩)
      rw [ih.mp h]
    · rintro rfl
      exact (ih.mpr rfl).exactly c

theorem matches_starting_iff : Matches (v.map .exactly ++ [.any]) s ↔ v <+: s := by
  rw [matches_append_iff]
  constructor
  · rintro ⟨front, back, rfl, hfront, -⟩
    rw [matches_exactly_iff.mp hfront]
    exact List.prefix_append v back
  · rintro ⟨back, rfl⟩
    exact ⟨v, back, rfl, matches_exactly_iff.mpr rfl, matches_any back⟩

theorem matches_ending_iff : Matches (.any :: v.map .exactly) s ↔ v <:+ s := by
  rw [matches_any_cons_iff]
  constructor
  · rintro ⟨front, back, rfl, h⟩
    rw [matches_exactly_iff.mp h]
    exact List.suffix_append front v
  · rintro ⟨front, rfl⟩
    exact ⟨front, v, rfl, matches_exactly_iff.mpr rfl⟩

theorem matches_containing_iff : Matches (.any :: (v.map .exactly ++ [.any])) s ↔ v <:+: s := by
  rw [matches_any_cons_iff]
  constructor
  · rintro ⟨front, rest, rfl, h⟩
    obtain ⟨back, rfl⟩ := matches_starting_iff.mp h
    exact ⟨front, back, List.append_assoc _ _ _⟩
  · rintro ⟨front, back, rfl⟩
    exact ⟨front, v ++ back, List.append_assoc _ _ _,
      matches_starting_iff.mpr (List.prefix_append v back)⟩

/-! ## Letters and shortest texts -/

/-- The characters that a symbol requires. -/
def Symbol.letters : Symbol → List Char
  | .exactly c => [c]
  | _ => []

/-- A text that a symbol stands for; it is as short as it can be. -/
def Symbol.shortest (filler : Char) : Symbol → List Char
  | .any => []
  | .one => [filler]
  | .exactly c => [c]

/-- A text has the letters of its patterns, in their order. -/
theorem sublist_of_matches (h : Matches p s) : (p.flatMap Symbol.letters).Sublist s := by
  induction h with
  | nil => exact .slnil
  | any front _ ih => exact ih.trans (List.sublist_append_right front _)
  | one c _ ih => exact ih.cons c
  | exactly c _ ih => exact ih.cons_cons c

theorem matches_shortest (filler : Char) (p : List Symbol) :
    Matches p (p.flatMap (Symbol.shortest filler)) := by
  induction p with
  | nil => exact .nil
  | cons symbol p ih =>
    cases symbol with
    | any => exact ih.any []
    | one => exact ih.one filler
    | exactly c => exact ih.exactly c

end Pattern

open Pattern

/-! ## Operators of texts -/

namespace Operator

/-- The operator asks something of texts: of their ends or inside, or how they look. -/
def isTextual : Operator → Bool
  | .eq | .ne | .sw | .ew | .w | .wo => true
  | _ => false

/-- The operator leaves the places of a glyph in its value open. -/
def takesGlyph : Operator → Bool
  | .eq | .ne => true
  | _ => false

/-- Puts `any` on the sides of a value that the operator leaves open. -/
def leaveOpen {α : Type} (op : Operator) (any : α) (inner : List α) : List α :=
  match op with
  | .sw => inner ++ [any]
  | .ew => any :: inner
  | .w | .wo => any :: (inner ++ [any])
  | _ => inner

theorem map_leaveOpen {α β : Type} (op : Operator) (f : α → β) (any : α) (inner : List α) :
    (op.leaveOpen any inner).map f = op.leaveOpen (f any) (inner.map f) := by
  cases op <;> simp [leaveOpen]

theorem flatMap_leaveOpen {α β : Type} (op : Operator) {f : α → List β} {any : α} (h : f any = [])
    (inner : List α) : (op.leaveOpen any inner).flatMap f = inner.flatMap f := by
  cases op <;> simp [leaveOpen, h]

end Operator

/-- What an operator asks of a text; the contrary is asked by `wo` and `ne`. -/
def Pattern.Asks (glyph : Char) (op : Operator) (value s : List Char) : Prop :=
  match op with
  | .sw => value <+: s
  | .ew => value <:+ s
  | .w | .wo => value <:+: s
  | _ => Matches (value.map fun c => if c = glyph then .any else .exactly c) s

/-- The characters with a meaning of their own in the patterns of a backend. -/
structure Wildcards where
  /-- Stands for any text. -/
  any : Char
  /-- Stands for any character. -/
  one : Char

namespace Wildcards

/-- The patterns of databases. -/
def like : Wildcards := ⟨'%', '_'⟩

/-- The patterns of search engines. -/
def search : Wildcards := ⟨'*', '?'⟩

/-- What a character of a pattern stands for. -/
def symbol (w : Wildcards) (c : Char) : Symbol :=
  if c = w.any then .any else if c = w.one then .one else .exactly c

/-- The backend takes the text for one that looks like the pattern. -/
def Accepts (w : Wildcards) (pattern s : List Char) : Prop :=
  Matches (pattern.map w.symbol) s

/-- The pattern that is made of a value. -/
def write (w : Wildcards) (glyph : Char) (op : Operator) (value : List Char) : List Char :=
  op.leaveOpen w.any (if op.takesGlyph then value.map fun c => if c = glyph then w.any else c else value)

/-- No character of the value has a meaning of its own, unless it is the glyph. -/
def Plain (w : Wildcards) (glyph : Char) (op : Operator) (value : List Char) : Prop :=
  ∀ c ∈ value, c = w.any ∨ c = w.one → op.takesGlyph = true ∧ c = glyph

instance (w : Wildcards) (glyph : Char) (op : Operator) (value : List Char) :
    Decidable (w.Plain glyph op value) :=
  List.decidableBAll (fun c => c = w.any ∨ c = w.one → op.takesGlyph = true ∧ c = glyph) value

variable {w : Wildcards} {glyph : Char} {op : Operator} {value s : List Char}

/-- What a character of a value is asked for. -/
def wanted (glyph : Char) (op : Operator) (c : Char) : Symbol :=
  if op.takesGlyph = true ∧ c = glyph then .any else .exactly c

/-- What a character of a value becomes. -/
def written (w : Wildcards) (glyph : Char) (op : Operator) (c : Char) : Symbol :=
  if op.takesGlyph = true ∧ c = glyph then .any else w.symbol c

theorem symbol_any (w : Wildcards) : w.symbol w.any = .any :=
  if_pos rfl

theorem map_symbol_write :
    (w.write glyph op value).map w.symbol = op.leaveOpen .any (value.map (w.written glyph op)) := by
  rw [write, Operator.map_leaveOpen, symbol_any]
  congr 1
  cases h : op.takesGlyph with
  | true =>
    rw [if_pos rfl, List.map_map]
    refine List.map_congr_left fun c _ => ?_
    rw [Function.comp_apply, written, h]
    by_cases hc : c = glyph
    · rw [if_pos hc, if_pos ⟨rfl, hc⟩, symbol_any]
    · rw [if_neg hc, if_neg fun hg => hc hg.2]
  | false =>
    rw [if_neg Bool.false_ne_true]
    refine List.map_congr_left fun c _ => ?_
    rw [written, h, if_neg fun hg => Bool.false_ne_true hg.1]

/-- An operator asks for the pattern with the characters of its value in it. -/
theorem asks_iff (hop : op.isTextual = true) : Asks glyph op value s
    ↔ Matches (op.leaveOpen .any (value.map (wanted glyph op))) s := by
  have hletters : op.takesGlyph = false → value.map (wanted glyph op) = value.map .exactly := fun h =>
    List.map_congr_left fun c _ => if_neg fun hg => Bool.false_ne_true (h.symm.trans hg.1)
  have hglyph : op.takesGlyph = true → value.map (wanted glyph op)
      = value.map fun c => if c = glyph then .any else .exactly c := fun h =>
    List.map_congr_left fun c _ => by simp only [wanted, h, true_and]
  cases op with
  | eq | ne =>
    rw [hglyph rfl]
    exact Iff.rfl
  | sw =>
    rw [hletters rfl]
    exact matches_starting_iff.symm
  | ew =>
    rw [hletters rfl]
    exact matches_ending_iff.symm
  | w | wo =>
    rw [hletters rfl]
    exact matches_containing_iff.symm
  | _ => exact absurd hop Bool.false_ne_true

theorem plain_iff : w.Plain glyph op value
    ↔ ∀ c ∈ value, w.written glyph op c = wanted glyph op c := by
  refine forall₂_congr fun c _ => ?_
  rw [written, wanted]
  by_cases hg : op.takesGlyph = true ∧ c = glyph
  · rw [if_pos hg, if_pos hg]
    exact iff_of_true (fun _ => hg) rfl
  · rw [if_neg hg, if_neg hg, symbol]
    by_cases hany : c = w.any
    · simp [hany, hany ▸ hg]
    · by_cases hone : c = w.one
      · simp [hone, hone ▸ hg, hone ▸ hany]
      · simp [hany, hone]

/-- Where a character has a meaning of its own the pattern accepts too much. -/
theorem written_eq_of_accepts
    (h : ∀ s, Matches (op.leaveOpen .any (value.map (w.written glyph op))) s →
      Matches (op.leaveOpen .any (value.map (wanted glyph op))) s) :
    ∀ c ∈ value, w.written glyph op c = wanted glyph op c := by
  obtain ⟨filler, hfiller⟩ : ∃ c : Char, c ≠ w.one := by
    by_cases ha : 'a' = w.one
    · exact ⟨'b', ha ▸ by decide⟩
    · exact ⟨'a', ha⟩
  have hsublist := sublist_of_matches (h _ (matches_shortest filler _))
  rw [Operator.flatMap_leaveOpen op rfl, Operator.flatMap_leaveOpen op rfl, List.flatMap_map,
    List.flatMap_map] at hsublist
  have hpieces : ∀ c ∈ value, (w.written glyph op c).shortest filler = (wanted glyph op c).letters := by
    refine eq_of_sublist_flatMap (fun c _ => ?_) hsublist
    rw [written, wanted]
    split
    · exact Nat.le_refl 0
    · rw [symbol]
      split
      · exact Nat.zero_le 1
      · split <;> exact Nat.le_refl 1
  intro c hc
  have hpiece := hpieces c hc
  rw [written, wanted] at hpiece ⊢
  split
  · rfl
  · next hg =>
    rw [if_neg hg, if_neg hg, symbol] at hpiece
    rw [symbol]
    split
    · next hany =>
      rw [if_pos hany] at hpiece
      exact absurd hpiece.symm (List.cons_ne_nil _ _)
    · next hany =>
      split
      · next hone =>
        rw [if_neg hany, if_pos hone] at hpiece
        exact absurd ((List.singleton_inj.mp hpiece).trans hone) hfiller
      · rfl

/-- **A pattern accepts what its operator asks for exactly if its value is plain.** -/
theorem forall_accepts_iff (hop : op.isTextual = true) :
    (∀ s, w.Accepts (w.write glyph op value) s ↔ Asks glyph op value s)
      ↔ w.Plain glyph op value := by
  simp only [Accepts, map_symbol_write, asks_iff hop, plain_iff]
  constructor
  · exact fun h => written_eq_of_accepts fun s => (h s).mp
  · intro h s
    rw [List.map_congr_left h]

end Wildcards

end Rql
