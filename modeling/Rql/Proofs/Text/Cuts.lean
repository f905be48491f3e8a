import Rql.Text

/-!
# Cuts and what they leave

Of all the ways to split a text at a mark, the cut at the first mark is the one with no mark before it
(`splitFirst?_eq_some_iff`), the cut at the last one that with no mark behind it (`splitLast?_eq_some_iff`),
and cutting at every mark is cutting at the first one again and again (`splitOn_eq`). Cutting undoes joining,
as long as no piece has the mark in it (`filter_splitOn_intercalate`).
-/

namespace Rql.Text

variable {mark : Char} {cs before after : List Char}

/-! ## The first mark -/

theorem splitFirst?_eq_none_iff : splitFirst? mark cs = none ↔ mark ∉ cs := by
  induction cs with
  | nil => simp [splitFirst?]
  | cons c cs ih =>
    rw [splitFirst?]
    by_cases hc : c = mark
    · simp [hc]
    · rw [if_neg hc, Option.map_eq_none_iff, ih, List.mem_cons, not_or]
      exact ⟨fun h => ⟨fun heq => hc heq.symm, h⟩, fun h => h.2⟩

theorem splitFirst?_append (h : mark ∉ before) (after : List Char) :
    splitFirst? mark (before ++ mark :: after) = some (before, after) := by
  induction before with
  | nil => rw [List.nil_append, splitFirst?, if_pos rfl]
  | cons c before ih =>
    have hc : c ≠ mark := fun heq => h (heq ▸ List.mem_cons_self)
    have hbefore : mark ∉ before := fun hmem => h (List.mem_cons_of_mem c hmem)
    rw [List.cons_append, splitFirst?, if_neg hc, ih hbefore, Option.map_some]

theorem splitFirst?_eq_some_iff :
    splitFirst? mark cs = some (before, after) ↔ cs = before ++ mark :: after ∧ mark ∉ before := by
  constructor
  · intro h
    induction cs generalizing before with
    | nil => exact absurd h (by simp [splitFirst?])
    | cons c cs ih =>
      rw [splitFirst?] at h
      split at h
      · rename_i hc
        obtain ⟨rfl, rfl⟩ := Prod.mk.inj (Option.some.inj h)
        exact ⟨by rw [hc, List.nil_append], List.not_mem_nil⟩
      · rename_i hc
        obtain ⟨⟨front, rest⟩, hcut, heq⟩ := Option.map_eq_some_iff.mp h
        obtain ⟨rfl, rfl⟩ := Prod.mk.inj heq
        obtain ⟨rfl, hfront⟩ := ih hcut
        refine ⟨rfl, fun hmem => ?_⟩
        rcases List.mem_cons.mp hmem with hhead | htail
        · exact hc hhead.symm
        · exact hfront htail
  · rintro ⟨rfl, h⟩
    exact splitFirst?_append h after

/-! ## The last mark -/

theorem splitLast?_eq_none_iff : splitLast? mark cs = none ↔ mark ∉ cs := by
  induction cs with
  | nil => simp [splitLast?]
  | cons c cs ih =>
    rw [splitLast?, List.mem_cons, not_or, ← ih]
    cases splitLast? mark cs with
    | some cut => simp
    | none =>
      by_cases hc : c = mark
      · simp [hc]
      · simp [hc, Ne.symm hc]

theorem splitLast?_append (before : List Char) (h : mark ∉ after) :
    splitLast? mark (before ++ mark :: after) = some (before, after) := by
  induction before with
  | nil => rw [List.nil_append, splitLast?, splitLast?_eq_none_iff.mpr h]; exact if_pos rfl
  | cons c before ih => rw [List.cons_append, splitLast?, ih]

theorem splitLast?_eq_some_iff :
    splitLast? mark cs = some (before, after) ↔ cs = before ++ mark :: after ∧ mark ∉ after := by
  constructor
  · intro h
    induction cs generalizing before with
    | nil => exact absurd h (by simp [splitLast?])
    | cons c cs ih =>
      rw [splitLast?] at h
      cases hcut : splitLast? mark cs with
      | some cut =>
        obtain ⟨front, behind⟩ := cut
        rw [hcut] at h
        obtain ⟨rfl, rfl⟩ := Prod.mk.inj (Option.some.inj h)
        obtain ⟨rfl, hbehind⟩ := ih hcut
        exact ⟨rfl, hbehind⟩
      | none =>
        rw [hcut] at h
        dsimp only at h
        split at h
        · rename_i hc
          obtain ⟨rfl, rfl⟩ := Prod.mk.inj (Option.some.inj h)
          exact ⟨by rw [hc, List.nil_append], splitLast?_eq_none_iff.mp hcut⟩
        · exact absurd h (Option.some_ne_none _).symm
  · rintro ⟨rfl, h⟩
    exact splitLast?_append before h

/-! ## Every mark -/

theorem splitOn_eq_splitOn (mark : Char) (cs : List Char) : splitOn mark cs = cs.splitOn mark := by
  induction cs with
  | nil => exact (List.splitOn_nil mark).symm
  | cons c cs ih =>
    rw [splitOn, List.splitOn_cons_eq_if_modifyHead, ih]
    by_cases hc : c = mark
    · rw [if_pos hc, if_pos (beq_iff_eq.mpr hc)]
    · rw [if_neg hc, if_neg fun heq => hc (eq_of_beq heq)]
      cases hpieces : cs.splitOn mark with
      | nil => exact absurd hpieces (List.splitOn_ne_nil mark cs)
      | cons piece pieces => rfl

theorem splitOn_ne_nil (mark : Char) (cs : List Char) : splitOn mark cs ≠ [] := by
  rw [splitOn_eq_splitOn]
  exact List.splitOn_ne_nil mark cs

/-- The first piece is what stands before the first mark. -/
theorem splitOn_eq (mark : Char) (cs : List Char) :
    splitOn mark cs = match splitFirst? mark cs with
      | none => [cs]
      | some (before, after) => before :: splitOn mark after := by
  cases hcut : splitFirst? mark cs with
  | none =>
    rw [splitOn_eq_splitOn, List.splitOn_eq_singleton (splitFirst?_eq_none_iff.mp hcut)]
  | some cut =>
    obtain ⟨before, after⟩ := cut
    obtain ⟨rfl, hbefore⟩ := splitFirst?_eq_some_iff.mp hcut
    rw [splitOn_eq_splitOn, List.splitOn_append_cons_self_of_not_mem hbefore]
    exact congrArg (before :: ·) (splitOn_eq_splitOn mark after).symm

/-- **Cutting undoes joining**, also where empty pieces are dropped. Then there need not be any pieces:
the one piece of the empty text is dropped. -/
theorem filter_splitOn_intercalate {pieces : List (List Char)} (h : ∀ piece ∈ pieces, mark ∉ piece)
    (hne : ∀ piece ∈ pieces, piece ≠ []) :
    (splitOn mark ([mark].intercalate pieces)).filter (!·.isEmpty) = pieces := by
  cases pieces with
  | nil => rfl
  | cons piece rest =>
    rw [splitOn_eq_splitOn, List.splitOn_intercalate mark h (List.cons_ne_nil piece rest),
      List.filter_eq_self]
    intro p hp
    rw [Bool.not_eq_true', List.isEmpty_eq_false_iff]
    exact hne p hp

/-- The characters of a joined text. -/
theorem toList_join (between : String) (texts : List String) :
    (join between texts).toList = between.toList.intercalate (texts.map String.toList) := by
  induction texts with
  | nil => rfl
  | cons s rest ih =>
    cases rest with
    | nil => rw [join_singleton, List.map_singleton, List.intercalate_singleton]
    | cons t rest =>
      rw [join_cons_cons, String.toList_append, String.toList_append, ih, List.map_cons, List.map_cons,
        List.map_cons, List.intercalate_cons_cons]

theorem toList_join_comma (texts : List String) :
    (join "," texts).toList = [','].intercalate (texts.map String.toList) :=
  toList_join "," texts

end Rql.Text
