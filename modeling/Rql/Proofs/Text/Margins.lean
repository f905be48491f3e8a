import Rql.Text

/-!
# Margins

The blanks around a text are its margins. `trim` takes off exactly these: a text with no blank at its
ends is what is left of it between any two margins (`trim_padded`), and every text is such a text between
two margins (`exists_padded`).
-/

namespace Rql.Text

/-- Nothing but blanks. -/
def Blank (cs : List Char) : Prop :=
  ∀ c ∈ cs, isBlank c = true

/-- No blank at either end. -/
structure Trimmed (cs : List Char) : Prop where
  head : ∀ c ∈ cs.head?, isBlank c = false
  last : ∀ c ∈ cs.getLast?, isBlank c = false

theorem all_not_eq_true {p : Char → Bool} {o : Option Char} :
    o.all (!p ·) = true ↔ ∀ c ∈ o, p c = false := by
  simp only [Option.all_eq_true, Bool.not_eq_true', Option.mem_def]

instance (cs : List Char) : Decidable (Trimmed cs) :=
  decidable_of_iff (cs.head?.all (!isBlank ·) ∧ cs.getLast?.all (!isBlank ·))
    ⟨fun h => ⟨all_not_eq_true.mp h.1, all_not_eq_true.mp h.2⟩,
      fun h => ⟨all_not_eq_true.mpr h.head, all_not_eq_true.mpr h.last⟩⟩

theorem blank_nil : Blank [] :=
  fun _ h => absurd h List.not_mem_nil

theorem blank_iff_all {cs : List Char} : cs.all isBlank = true ↔ Blank cs :=
  List.all_eq_true

theorem trimmed_nil : Trimmed [] where
  head _ hc := absurd hc (by simp)
  last _ hc := absurd hc (by simp)

theorem Trimmed.append {cs ds : List Char} (hcs : Trimmed cs) (hds : Trimmed ds) :
    Trimmed (cs ++ ds) := by
  cases cs with
  | nil => exact hds
  | cons c cs =>
    refine ⟨hcs.head, fun d hd => ?_⟩
    rw [List.getLast?_append] at hd
    cases hlast : ds.getLast? with
    | none =>
      rw [hlast] at hd
      exact hcs.last d hd
    | some e =>
      rw [hlast] at hd
      exact hds.last d (hlast.trans hd)

/-- Where a blank is not what comes next, there is no margin. -/
theorem Blank.eq_nil {margin cs ds : List Char} (h : Blank margin)
    (hd : ∀ c ∈ ds.head?, isBlank c = false) (heq : margin ++ cs = ds) : margin = [] := by
  cases margin with
  | nil => rfl
  | cons c margin =>
    have hc : c ∈ ds.head? := by rw [← heq]; rfl
    have := h c List.mem_cons_self
    rw [hd c hc] at this
    exact absurd this Bool.false_ne_true

/-! ## One side -/

theorem trimLeft_append {margin : List Char} (h : Blank margin) (cs : List Char) :
    trimLeft (margin ++ cs) = trimLeft cs :=
  List.dropWhile_append_of_pos h

theorem trimLeft_eq_self {cs : List Char} (h : ∀ c ∈ cs.head?, isBlank c = false) :
    trimLeft cs = cs := by
  cases cs with
  | nil => rfl
  | cons c cs =>
    have hc : isBlank c = false := h c rfl
    rw [trimLeft, List.dropWhile_cons_of_neg (by rw [hc]; exact Bool.false_ne_true)]

theorem head_trimLeft (cs : List Char) : ∀ c ∈ (trimLeft cs).head?, isBlank c = false := by
  intro c hc
  have := List.head?_dropWhile_not isBlank cs
  rw [show (cs.dropWhile isBlank).head? = some c from hc] at this
  exact this

theorem trimRight_append {margin : List Char} (h : Blank margin) (cs : List Char) :
    trimRight (cs ++ margin) = trimRight cs := by
  have hr : Blank margin.reverse := fun c hc => h c (List.mem_reverse.mp hc)
  rw [trimRight, List.reverse_append, trimLeft_append hr, ← trimRight]

theorem trimRight_eq_self {cs : List Char} (h : ∀ c ∈ cs.getLast?, isBlank c = false) :
    trimRight cs = cs := by
  rw [trimRight, trimLeft_eq_self (by rwa [List.head?_reverse]), List.reverse_reverse]

theorem trimRight_split (cs : List Char) : ∃ margin, Blank margin ∧ cs = trimRight cs ++ margin := by
  refine ⟨(cs.reverse.takeWhile isBlank).reverse, ?_, ?_⟩
  · intro c hc
    exact blank_iff_all.mp List.all_takeWhile c (List.mem_reverse.mp hc)
  · have := congrArg List.reverse (List.takeWhile_append_dropWhile (p := isBlank) (l := cs.reverse))
    rw [List.reverse_append, List.reverse_reverse] at this
    exact this.symm

/-! ## Both sides -/

/-- **Between two margins `trim` finds what stands there.** -/
theorem trim_padded {before cs after : List Char} (hb : Blank before) (h : Trimmed cs)
    (ha : Blank after) : trim (before ++ cs ++ after) = cs := by
  rw [trim, List.append_assoc, trimLeft_append hb]
  cases cs with
  | nil =>
    have : trimLeft after = [] := by
      have := trimLeft_append ha []
      rwa [List.append_nil] at this
    rw [List.nil_append, this]
    rfl
  | cons c cs =>
    have hleft : trimLeft (c :: cs ++ after) = c :: cs ++ after :=
      trimLeft_eq_self fun d hd => h.head d hd
    rw [hleft, trimRight_append ha, trimRight_eq_self h.last]

theorem trim_eq_self {cs : List Char} (h : Trimmed cs) : trim cs = cs := by
  have := trim_padded blank_nil h blank_nil
  rwa [List.nil_append, List.append_nil] at this

theorem map_trim_eq_self {pieces : List (List Char)} (h : ∀ piece ∈ pieces, Trimmed piece) :
    pieces.map trim = pieces :=
  (List.map_congr_left fun piece hpiece => trim_eq_self (h piece hpiece)).trans (List.map_id pieces)

theorem trimmed_trim (cs : List Char) : Trimmed (trim cs) := by
  constructor
  · -- the text begins where it begins without its left margin alone
    intro c hc
    obtain ⟨margin, -, hsplit⟩ := trimRight_split (trimLeft cs)
    refine head_trimLeft cs c ?_
    rw [hsplit, ← trim, List.head?_append, hc]
    rfl
  · intro c hc
    rw [trim, trimRight, List.getLast?_reverse] at hc
    exact head_trimLeft _ c hc

/-- **Every text is its trimmed text between two margins.** -/
theorem exists_padded (cs : List Char) :
    ∃ before after, Blank before ∧ Blank after ∧ cs = before ++ trim cs ++ after := by
  obtain ⟨after, ha, hright⟩ := trimRight_split (trimLeft cs)
  refine ⟨cs.takeWhile isBlank, after, blank_iff_all.mp List.all_takeWhile, ha, ?_⟩
  rw [List.append_assoc, trim, ← hright]
  exact List.takeWhile_append_dropWhile.symm

theorem trim_trim (cs : List Char) : trim (trim cs) = trim cs :=
  trim_eq_self (trimmed_trim cs)

end Rql.Text
