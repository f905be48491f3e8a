import Rql.Numeral

/-!
# Numbers of 64 bits with a floating point

The finite numbers of the format binary64, each with its sign (zero has two). A number is kept as
significand and power of two, so that rounding is arithmetic on natural numbers: `ofRatio?` takes
the number nearest to a quotient, a tie goes to the even significand, and a quotient past the
greatest number has none.

A decimal text is read as the number nearest to it (`ofText?`). What is too great for that, like
what is no number at all, is no finite number and gives `none`.

A number is written with the fewest decimal digits from which `ofDecimal?` finds it again, and among
those with the ones nearest to it (`render`). Every decimal with `k` significant digits lies on one
grid near the number, so only the two neighbours of the number on that grid have to be tried. How
many digits stand before the point, and when the exponent is written out, is up to a `Layout`.
-/

namespace Rql

/-- A finite number: `significand * 2 ^ exponent`, negated if `negative`. -/
structure Binary64 where
  negative : Bool
  significand : Nat
  exponent : Int
deriving DecidableEq, Repr

namespace Binary64

/-! ## Rounding -/

/-- Significands have at most this many bits. -/
def precision : Nat := 53

/-- The exponent of the numbers nearest to zero. -/
def minExponent : Int := -1074

/-- The exponent of the numbers farthest from zero. -/
def maxExponent : Int := 971

/-- Zero, with a sign. -/
def zero (negative : Bool) : Binary64 :=
  ⟨negative, 0, minExponent⟩

/-- The whole number nearest to `num / den`; a tie goes to the even one. -/
def roundDiv (num den : Nat) : Nat :=
  let quotient := num / den
  let twice := 2 * (num % den)
  if twice < den ∨ (twice = den ∧ quotient % 2 = 0) then quotient else quotient + 1

/-- Numerator and denominator of `num / den / 2 ^ exponent`. -/
def unscale (num den : Nat) (exponent : Int) : Nat × Nat :=
  if 0 ≤ exponent then (num, den * Nat.pow 2 exponent.toNat)
  else (num * Nat.pow 2 (-exponent).toNat, den)

/-- The exponent at which `num / den` has a significand of `precision` bits, or `minExponent` if
that is greater. The logarithms fix it up to one. -/
def fittingExponent (num den : Nat) : Int :=
  let upper : Int := (num.log2 : Int) - den.log2 - (precision - 1 : Nat)
  let (n, d) := unscale num den upper
  max minExponent (if n < d * Nat.pow 2 (precision - 1) then upper - 1 else upper)

/-- The number nearest to `num / den`, none if that lies past the greatest number. -/
def ofRatio? (negative : Bool) (num den : Nat) : Option Binary64 :=
  if num = 0 then some (zero negative)
  else
    let exponent := fittingExponent num den
    let (n, d) := unscale num den exponent
    let rounded := roundDiv n d
    let result : Binary64 :=
      if rounded = Nat.pow 2 precision then ⟨negative, Nat.pow 2 (precision - 1), exponent + 1⟩
      else ⟨negative, rounded, exponent⟩
    if result.exponent ≤ maxExponent then some result else none

/-- The number nearest to `digits * 10 ^ scale`. Scales that are out of reach whatever the digits
are told apart first, so that no power of ten is built for them. -/
def ofDecimal? (negative : Bool) (digits : Nat) (scale : Int) : Option Binary64 :=
  if digits = 0 ∨ scale < -(400 + digits.log2 : Nat) then some (zero negative)
  else if 400 < scale then none
  else if 0 ≤ scale then ofRatio? negative (digits * Nat.pow 10 scale.toNat) 1
  else ofRatio? negative digits (Nat.pow 10 (-scale).toNat)

/-- Numerator and denominator of the magnitude. -/
def toRatio (x : Binary64) : Nat × Nat :=
  if 0 ≤ x.exponent then (x.significand * Nat.pow 2 x.exponent.toNat, 1)
  else (x.significand, Nat.pow 2 (-x.exponent).toNat)

/-- The rounded product. -/
def mul? (x y : Binary64) : Option Binary64 :=
  let (a, b) := x.toRatio
  let (c, d) := y.toRatio
  ofRatio? (x.negative != y.negative) (a * c) (b * d)

/-- The rounded quotient, for a divisor other than zero. -/
def div? (x y : Binary64) : Option Binary64 :=
  let (a, b) := x.toRatio
  let (c, d) := y.toRatio
  ofRatio? (x.negative != y.negative) (a * d) (b * c)

/-! ## Reading -/

/-- The number nearest to a numeral. -/
def ofNumeral? (n : Numeral) : Option Binary64 :=
  ofDecimal? (n.sign == .minus) (Numeral.ofDigits n.digits) n.scale

/-- The finite number that the whole text stands for. -/
def ofText? (s : String) : Option Binary64 :=
  (Numeral.ofChars? s.toList).bind fun n => if n.isLiteral then ofNumeral? n else none

/-! ## The fewest digits that read back -/

/-- `num / den ≥ 10 ^ e`. -/
def reachesTenTo (num den : Nat) (e : Int) : Bool :=
  if 0 ≤ e then den * Nat.pow 10 e.toNat ≤ num else den ≤ num * Nat.pow 10 (-e).toNat

/-- The exponent of the leading decimal digit of a positive `num / den`. The logarithms fix it up
to one. -/
def decimalExponent (num den : Nat) : Int :=
  let guess : Int := ((num.log2 : Int) - den.log2) * 30103 / 100000
  if reachesTenTo num den (guess + 1) then guess + 1
  else if reachesTenTo num den guess then guess
  else guess - 1

/-- The neighbour of a positive `x` on the grid of the multiples of `10 ^ scale` that reads back as
`x`; if both do, the nearer one, and the even one of two equally near. -/
def neighbour? (x : Binary64) (scale : Int) : Option Nat :=
  let (num, den) := x.toRatio
  let (n, d) :=
    if 0 ≤ scale then (num, den * Nat.pow 10 scale.toNat)
    else (num * Nat.pow 10 (-scale).toNat, den)
  let below := n / d
  let twice := 2 * (n % d)
  let readsBack (digits : Nat) : Bool := digits ≠ 0 && ofDecimal? x.negative digits scale == some x
  let lower := twice < d || (twice == d && below % 2 == 0)
  let (nearer, farther) := if lower then (below, below + 1) else (below + 1, below)
  if readsBack nearer then some nearer else if readsBack farther then some farther else none

/-- Drops the zeros at the end of a digit count and raises the scale for each. -/
def dropZeros : Nat → Nat → Int → Nat × Int
  | 0, digits, scale => (digits, scale)
  | steps + 1, digits, scale =>
    if digits ≠ 0 ∧ digits % 10 = 0 then dropZeros steps (digits / 10) (scale + 1)
    else (digits, scale)

/-- Seventeen significant digits tell all numbers apart. -/
def maxDigits : Nat := 17

/-- The fewest digits that read back, and the power of ten they are to be multiplied with. -/
def shortest (x : Binary64) : Nat × Int :=
  if x.significand = 0 then (0, 0)
  else
    let (num, den) := x.toRatio
    let leading := decimalExponent num den
    let found := (List.range maxDigits).findSome? fun (k : Nat) =>
      (neighbour? x (leading - k)).map fun digits => (digits, leading - k)
    match found with
    | some (digits, scale) => dropZeros (maxDigits + 1) digits scale
    | none => (0, 0)

/-- How the digits of a number are laid out: without an exponent if the exponent of the leading
digit is at least `least` and below `beyond`. -/
structure Layout where
  least : Int
  beyond : Int

/-- The digits of a natural number. -/
def decimalDigits (n : Nat) : List Char :=
  Nat.toDigits 10 n

/-- Digits without an exponent: at least one on either side of the point. -/
def positional (digits : List Char) (leading : Int) : List Char :=
  if leading < 0 then '0' :: '.' :: (List.replicate (-leading - 1).toNat '0' ++ digits)
  else
    let before := leading.toNat + 1
    let padded := digits ++ List.replicate (before - digits.length) '0'
    let after := padded.drop before
    padded.take before ++ '.' :: (if after.isEmpty then ['0'] else after)

/-- One digit before the point, and the exponent with its sign. -/
def scientific (digits : List Char) (leading : Int) : List Char :=
  let mantissa := match digits with
    | first :: second :: rest => first :: '.' :: second :: rest
    | few => few
  mantissa ++ 'e' :: (if leading < 0 then '-' else '+') :: decimalDigits leading.natAbs

/-- The text of a number. -/
def render (layout : Layout) (x : Binary64) : String :=
  let (digits, scale) := x.shortest
  let written := decimalDigits digits
  let leading := scale + written.length - 1
  let text :=
    if layout.least ≤ leading ∧ leading < layout.beyond then positional written leading
    else scientific written leading
  .ofList (if x.negative then '-' :: text else text)

end Binary64

end Rql
