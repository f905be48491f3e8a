import Rql.Json.Basic

/-!
# Letters and digits by their codes

The letters and digits of ASCII are three runs of codes. What is asked of them elsewhere, to be no blank,
no quote or no mark, is settled by these bounds.
-/

namespace Rql.Text

variable {c : Char}

theorem isUpper_iff : c.isUpper = true ↔ 65 ≤ c.toNat ∧ c.toNat ≤ 90 :=
  decide_eq_true_iff

theorem isLower_iff : c.isLower = true ↔ 97 ≤ c.toNat ∧ c.toNat ≤ 122 :=
  (Bool.and_eq_true_iff ..).trans (and_congr decide_eq_true_iff decide_eq_true_iff)

theorem isDigit_iff : c.isDigit = true ↔ 48 ≤ c.toNat ∧ c.toNat ≤ 57 :=
  Char.isDigit_iff_toNat

theorem isAlphanum_iff : c.isAlphanum = true ↔
    ((65 ≤ c.toNat ∧ c.toNat ≤ 90) ∨ (97 ≤ c.toNat ∧ c.toNat ≤ 122))
      ∨ (48 ≤ c.toNat ∧ c.toNat ≤ 57) := by
  have hcases : c.isAlphanum = ((c.isUpper || c.isLower) || c.isDigit) := rfl
  rw [hcases, Bool.or_eq_true, Bool.or_eq_true, isUpper_iff, isLower_iff, isDigit_iff]

theorem code_of_isAlphanum (h : c.isAlphanum = true) : 48 ≤ c.toNat ∧ c.toNat ≤ 122 := by
  rw [isAlphanum_iff] at h
  omega

/-- Only a large letter has a small one that is another character. -/
theorem isAlphanum_of_toLower (h : c.toLower.isAlphanum = true) : c.isAlphanum = true := by
  by_cases hupper : c.isUpper = true
  · exact isAlphanum_iff.mpr (.inl (.inl (isUpper_iff.mp hupper)))
  · have hsame : c.toLower = c := dif_neg fun hrange => hupper (decide_eq_true hrange)
    rwa [hsame] at h

/-- The three runs of hexadecimal digits, and what each counts from. -/
theorem code_of_hexValue? {n : Nat} (h : Numeral.hexValue? c = some n) :
    (48 ≤ c.toNat ∧ c.toNat ≤ 57 ∧ n = c.toNat - 48)
      ∨ (97 ≤ c.toNat ∧ c.toNat ≤ 102 ∧ n = c.toNat - 97 + 10)
      ∨ (65 ≤ c.toNat ∧ c.toNat ≤ 70 ∧ n = c.toNat - 65 + 10) := by
  rw [Numeral.hexValue?] at h
  split at h
  · rename_i hdigit
    obtain ⟨hlow, hhigh⟩ := isDigit_iff.mp hdigit
    exact .inl ⟨hlow, hhigh, (Option.some.inj h).symm⟩
  · split at h
    · rename_i hsmall
      exact .inr (.inl ⟨hsmall.1, hsmall.2, (Option.some.inj h).symm⟩)
    · split at h
      · rename_i hlarge
        exact .inr (.inr ⟨hlarge.1, hlarge.2, (Option.some.inj h).symm⟩)
      · exact absurd h (Option.some_ne_none n).symm

/-- A hexadecimal digit is a letter or a digit. -/
theorem isAlphanum_of_hexValue? {n : Nat} (h : Numeral.hexValue? c = some n) :
    c.isAlphanum = true := by
  have hcode := code_of_hexValue? h
  rw [isAlphanum_iff]
  omega

theorem hexValue?_lt {n : Nat} (h : Numeral.hexValue? c = some n) : n < 16 := by
  have hcode := code_of_hexValue? h
  omega

theorem hexValue?_hexDigit : ∀ n < 16, Numeral.hexValue? (Json.hexDigit n) = some n := by
  decide

end Rql.Text
