import Rql.Proofs.Text.Alphanumeric
import Rql.Proofs.Text.Margins
import Rql.Term.Reader

/-!
# The grammar of terms

What the notation of terms is, without a word on how it is read. A term is a quoted word, a bare word, or
a call of a name with terms as arguments; blanks may stand around every term, between a name and its
parenthesis, and between the parentheses of a call without arguments.

* `Quoted q inside text`: what stands between two quotes `q`, and the text that it stands for.
* `Bare place cs`: a word without quotes. Only the word that is a whole text may hold a comma.
* `Exact place cs t`: the text `cs`, which has no margins, is a notation of the term `t`.
* `Padded place cs t`: the same with margins.
* `Arguments cs ts`: the text `cs` is a notation of the arguments `ts`.

`Derives s t` is the notation of a term that is a whole text.
-/

namespace Rql.Term

open Text (Blank Trimmed isBlank)

/-- Where a term stands. -/
inductive Place where
  /-- The term is the whole text. -/
  | alone
  /-- The term is an argument of a call. -/
  | argument
deriving DecidableEq, Repr

/-- A backslash takes the character behind it as it is; any other character but the quote stands for
itself. -/
inductive Quoted (quote : Char) : List Char → List Char → Prop where
  | nil : Quoted quote [] []
  | escaped {c : Char} {inside text : List Char} :
      Quoted quote inside text → Quoted quote ('\\' :: c :: inside) (c :: text)
  | plain {c : Char} {inside text : List Char} :
      c ≠ '\\' → c ≠ quote → Quoted quote inside text → Quoted quote (c :: inside) (c :: text)

/-- A word that needs no quotes. -/
structure Bare (place : Place) (cs : List Char) : Prop where
  ne_nil : cs ≠ []
  trimmed : Trimmed cs
  /-- A quote in front would open a quoted word. -/
  unquoted : ∀ c ∈ cs.head?, isQuote c = false
  no_parenthesis : '(' ∉ cs ∧ ')' ∉ cs
  /-- A comma would end the argument. -/
  no_comma : place = .argument → ',' ∉ cs

instance (place : Place) (cs : List Char) : Decidable (Bare place cs) :=
  decidable_of_iff (cs ≠ [] ∧ Trimmed cs ∧ cs.head?.all (!isQuote ·) ∧
      ('(' ∉ cs ∧ ')' ∉ cs) ∧ (place = .argument → ',' ∉ cs))
    ⟨fun ⟨h₁, h₂, h₃, h₄, h₅⟩ => ⟨h₁, h₂, Text.all_not_eq_true.mp h₃, h₄, h₅⟩, fun h =>
      ⟨h.ne_nil, h.trimmed, Text.all_not_eq_true.mpr h.unquoted, h.no_parenthesis, h.no_comma⟩⟩

/-- A name that can be called. -/
structure IsName (cs : List Char) : Prop where
  ne_nil : cs ≠ []
  chars : ∀ c ∈ cs, isNameChar c = true

mutual

/-- `Exact place cs t`: without margins, `cs` is a notation of `t`. -/
inductive Exact : Place → List Char → Term → Prop where
  | quoted {place : Place} {quote : Char} {inside text : List Char} :
      isQuote quote = true → Quoted quote inside text →
      Exact place (quote :: (inside ++ [quote])) (.word (.ofQuoted (.ofList text)))
  | bare {place : Place} {cs : List Char} :
      Bare place cs → Exact place cs (.word (.bare (.ofList cs)))
  | call {place : Place} {name gap inside : List Char} {args : List Term} :
      IsName name → Blank gap → Arguments inside args →
      Exact place (name ++ gap ++ '(' :: (inside ++ [')'])) (.call (.ofList name) args)

/-- `Padded place cs t`: between margins, `cs` is a notation of `t`. -/
inductive Padded : Place → List Char → Term → Prop where
  | intro {place : Place} {before cs after : List Char} {t : Term} :
      Blank before → Exact place cs t → Blank after → Padded place (before ++ cs ++ after) t

/-- `Arguments cs ts`: terms with commas between them, or no term at all. -/
inductive Arguments : List Char → List Term → Prop where
  | none {cs : List Char} : Blank cs → Arguments cs []
  | last {cs : List Char} {t : Term} : Padded .argument cs t → Arguments cs [t]
  | cons {cs rest : List Char} {t u : Term} {us : List Term} :
      Padded .argument cs t → Arguments rest (u :: us) → Arguments (cs ++ ',' :: rest) (t :: u :: us)

end

/-- The text is a notation of the term. -/
def Derives (s : String) (t : Term) : Prop :=
  Padded .alone s.toList t

/-! ## Characters -/

theorem isBlank_of_isQuote {c : Char} (h : isQuote c = true) : isBlank c = false := by
  have : c = '\'' ∨ c = '"' := by simpa [isQuote] using h
  rcases this with rfl | rfl <;> decide

theorem ne_backslash_of_isQuote {c : Char} (h : isQuote c = true) : c ≠ '\\' := by
  rintro rfl
  exact absurd h (by decide)

theorem isQuote_of_isBlank {c : Char} (h : isBlank c = true) : isQuote c = false := by
  cases hq : isQuote c with
  | false => rfl
  | true => exact absurd ((isBlank_of_isQuote hq).symm.trans h) Bool.false_ne_true

theorem code_of_isNameChar {c : Char} (h : isNameChar c = true) : 48 ≤ c.toNat ∧ c.toNat < 128 := by
  rw [isNameChar, Bool.or_eq_true, beq_iff_eq] at h
  rcases h with halphanum | rfl
  · have := Text.code_of_isAlphanum halphanum
    omega
  · decide

theorem isBlank_of_isNameChar {c : Char} (h : isNameChar c = true) : isBlank c = false := by
  have := code_of_isNameChar h
  simp only [isBlank, Text.blankRanges, List.any_cons, List.any_nil, Bool.or_false,
    Bool.or_eq_false_iff, Bool.and_eq_false_iff, decide_eq_false_iff_not]
  omega

/-- No quote, parenthesis or comma has a code as great as the characters of names. -/
theorem ne_of_isNameChar {c d : Char} (h : isNameChar c = true) (hd : d.toNat < 48) : c ≠ d := by
  rintro rfl
  have := (code_of_isNameChar h).1
  omega

theorem isQuote_of_isNameChar {c : Char} (h : isNameChar c = true) : isQuote c = false := by
  have h₁ : c ≠ '\'' := ne_of_isNameChar h (by decide)
  have h₂ : c ≠ '"' := ne_of_isNameChar h (by decide)
  simp [isQuote, h₁, h₂]

namespace IsName

variable {cs : List Char}

theorem not_mem (h : IsName cs) {d : Char} (hd : d.toNat < 48) : d ∉ cs :=
  fun hmem => ne_of_isNameChar (h.chars d hmem) hd rfl

theorem trimmed (h : IsName cs) : Trimmed cs :=
  ⟨fun c hc => isBlank_of_isNameChar (h.chars c (List.mem_of_mem_head? hc)),
    fun c hc => isBlank_of_isNameChar (h.chars c (List.mem_of_mem_getLast? hc))⟩

/-- A name would be a bare word, if no parenthesis followed. -/
theorem bare (h : IsName cs) (place : Place) : Bare place cs where
  ne_nil := h.ne_nil
  trimmed := h.trimmed
  unquoted c hc := isQuote_of_isNameChar (h.chars c (List.mem_of_mem_head? hc))
  no_parenthesis := ⟨h.not_mem (by decide), h.not_mem (by decide)⟩
  no_comma _ := h.not_mem (by decide)

/-- A text that begins with a name and ends with a parenthesis has no margins. -/
theorem trimmed_call (h : IsName cs) (gap inside : List Char) :
    Trimmed (cs ++ gap ++ '(' :: (inside ++ [')'])) := by
  constructor
  · obtain ⟨d, name, rfl⟩ := List.exists_cons_of_ne_nil h.ne_nil
    intro c hc
    rw [← Option.some.inj hc]
    exact h.trimmed.head d rfl
  · intro c hc
    rw [← List.cons_append, ← List.append_assoc, List.getLast?_concat] at hc
    rw [← Option.some.inj hc]
    decide

end IsName

/-! ## Margins -/

/-- The characters of a call without blanks. -/
theorem toList_call (name inside : String) :
    (name ++ "(" ++ inside ++ ")").toList = name.toList ++ [] ++ '(' :: (inside.toList ++ [')']) := by
  simp

theorem Exact.trimmed {place : Place} {cs : List Char} {t : Term} (h : Exact place cs t) :
    Trimmed cs := by
  cases h with
  | @quoted _ quote inside text hq _ =>
    have hblank := isBlank_of_isQuote hq
    constructor
    · intro c hc
      rw [← Option.some.inj hc]
      exact hblank
    · intro c hc
      rw [← List.cons_append, List.getLast?_concat] at hc
      rw [← Option.some.inj hc]
      exact hblank
  | bare h => exact h.trimmed
  | call hname _ _ => exact hname.trimmed_call _ _

theorem Exact.padded {place : Place} {cs : List Char} {t : Term} (h : Exact place cs t) :
    Padded place cs t := by
  have := Padded.intro Text.blank_nil h Text.blank_nil
  rwa [List.nil_append, List.append_nil] at this

/-- What stands between two quotes is at least as long as the text that it stands for. -/
theorem Quoted.length_le {quote : Char} {inside text : List Char} (h : Quoted quote inside text) :
    text.length ≤ inside.length := by
  induction h with
  | nil => exact Nat.le_refl 0
  | escaped _ ih => simp only [List.length_cons]; omega
  | plain _ _ _ ih => simp only [List.length_cons]; omega

end Rql.Term
