/-!
# Numerals

A numeral is the written form of a decimal number, taken apart but not yet evaluated: sign, digits
before the point, digits after it, exponent. The same parts serve two formats with different rules:
literals (`isLiteral`), where a digit on either side of the point is enough, and JSON (`isJson`),
where the digits before the point are required and have no leading zero.

A run of digits alone is read as a natural number, as a count below `2 ^ 64` that may carry a plus
sign, or as an integer of 64 bits that may carry either sign. Such a reading takes the whole text or
nothing, and leading zeros are allowed in all of them.
-/

namespace Rql

/-- The sign a numeral or an exponent is written with. -/
inductive Sign where
  | none
  | plus
  | minus
deriving DecidableEq, Repr

/-- A decimal number as it is written. -/
structure Numeral where
  sign : Sign
  /-- The digits before the point. -/
  whole : List Char
  /-- The digits after the point, if there is one. -/
  fraction : Option (List Char)
  /-- Sign and digits of the exponent, if there is one. -/
  exponent : Option (Sign × List Char)
deriving DecidableEq, Repr

namespace Numeral

/-! ## Whole numbers -/

/-- The value of one ASCII digit. -/
def digitValue (c : Char) : Nat :=
  c.toNat - '0'.toNat

/-- The value of a run of digits, the most significant first. -/
def ofDigits (ds : List Char) : Nat :=
  ds.foldl (fun n c => 10 * n + digitValue c) 0

/-- One or more digits and nothing else. -/
def natural? (cs : List Char) : Option Nat :=
  if cs ≠ [] ∧ cs.all Char.isDigit then some (ofDigits cs) else none

/-- A count is below this bound. -/
def countBound : Nat := Nat.pow 2 64

/-- Digits after an optional plus sign, for a number below `countBound`. -/
def count? (s : String) : Option Nat :=
  let digits := match s.toList with
    | '+' :: rest => rest
    | cs => cs
  (natural? digits).filter (· < countBound)

/-- The integers of 64 bits: from `-2 ^ 63` up to `2 ^ 63 - 1`. -/
def inRange (n : Int) : Bool :=
  -(Nat.pow 2 63 : Nat) ≤ n && n < (Nat.pow 2 63 : Nat)

/-- Digits after an optional sign, for an integer of 64 bits. -/
def integer? (s : String) : Option Int :=
  let value : Option Int := match s.toList with
    | '+' :: rest => (natural? rest).map Int.ofNat
    | '-' :: rest => (natural? rest).map fun n => -Int.ofNat n
    | cs => (natural? cs).map Int.ofNat
  value.filter inRange

/-- The value of one hexadecimal digit, in either case. -/
def hexValue? (c : Char) : Option Nat :=
  if c.isDigit then some (digitValue c)
  else if 'a' ≤ c ∧ c ≤ 'f' then some (c.toNat - 'a'.toNat + 10)
  else if 'A' ≤ c ∧ c ≤ 'F' then some (c.toNat - 'A'.toNat + 10)
  else none

/-! ## The parts of a numeral -/

/-- Takes a sign off the front. -/
def splitSign : List Char → Sign × List Char
  | '+' :: rest => (.plus, rest)
  | '-' :: rest => (.minus, rest)
  | cs => (.none, cs)

/-- Takes a point and the digits after it off the front. -/
def splitFraction : List Char → Option (List Char) × List Char
  | '.' :: rest => (some (rest.takeWhile Char.isDigit), rest.dropWhile Char.isDigit)
  | cs => (none, cs)

/-- Reads an exponent that takes the whole text; the empty text is no exponent. -/
def exponent? : List Char → Option (Option (Sign × List Char))
  | [] => some none
  | mark :: rest =>
    let (sign, digits) := splitSign rest
    if (mark = 'e' ∨ mark = 'E') ∧ digits.all Char.isDigit then some (some (sign, digits))
    else none

/-- Takes a written number apart. Any of its runs of digits may still be empty. -/
def ofChars? (cs : List Char) : Option Numeral :=
  let (sign, unsigned) := splitSign cs
  let (fraction, rest) := splitFraction (unsigned.dropWhile Char.isDigit)
  (exponent? rest).map fun exponent =>
    { sign, whole := unsigned.takeWhile Char.isDigit, fraction, exponent }

/-- An exponent has digits. -/
def exponentFilled (n : Numeral) : Bool :=
  n.exponent.all fun e => !e.2.isEmpty

/-- Allowed in a literal: a digit before the point or after it, and in the exponent. -/
def isLiteral (n : Numeral) : Bool :=
  (!n.whole.isEmpty || n.fraction.any (!·.isEmpty)) && n.exponentFilled

/-- Allowed in JSON: digits before the point without a superfluous zero, digits after the point and
in the exponent, and no plus sign. -/
def isJson (n : Numeral) : Bool :=
  n.sign != .plus && !n.whole.isEmpty && (n.whole == ['0'] || n.whole.head? != some '0')
    && n.fraction.all (!·.isEmpty) && n.exponentFilled

/-- Neither a point nor an exponent. -/
def isWhole (n : Numeral) : Bool :=
  n.fraction.isNone && n.exponent.isNone

/-- All digits of the number but those of its exponent. -/
def digits (n : Numeral) : List Char :=
  n.whole ++ n.fraction.getD []

/-- The exponent as written, zero if there is none. -/
def writtenExponent (n : Numeral) : Int :=
  match n.exponent with
  | none => 0
  | some (.minus, ds) => -Int.ofNat (ofDigits ds)
  | some (_, ds) => Int.ofNat (ofDigits ds)

/-- The power of ten that the number made of all `digits` is to be multiplied with. -/
def scale (n : Numeral) : Int :=
  n.writtenExponent - (n.fraction.getD []).length

end Numeral

end Rql
