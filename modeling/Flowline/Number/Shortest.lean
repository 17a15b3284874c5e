import Flowline.Number.Literal

/-!
The shortest decimal that reads back as a given floating-point number. The reals that round to `x` form an
interval around it; the shortest decimal is the multiple of the greatest power of ten that lies in this
interval and is nearest to `x`. Interval ends are counted in quarters of the significand's unit, which
makes them whole.
-/

namespace Flowline.Binary64

/-- The power of two of a quarter unit. -/
def quarter (x : Binary64) : Int :=
  x.scale - 2

/-- The lower end of the interval. Below a power of two the neighbours stand half as far apart. -/
def lower (x : Binary64) : Nat :=
  4 * x.significand - (if x.fraction.val = 0 && 1 < x.exponent.val then 1 else 2)

/-- The upper end of the interval. -/
def upper (x : Binary64) : Nat :=
  4 * x.significand + 2

/-- `coefficient * 10 ^ exponent` as a multiple of the common unit of `x` and `10 ^ exponent`. -/
def decimalUnits (x : Binary64) (coefficient : Nat) (exponent : Int) : Nat :=
  coefficient * Nat.pow 10 exponent.toNat * Nat.pow 2 (-x.quarter).toNat

/-- `quarters` quarter units of `x` as a multiple of the common unit of `x` and `10 ^ exponent`. -/
def quarterUnits (x : Binary64) (quarters : Nat) (exponent : Int) : Nat :=
  quarters * Nat.pow 10 (-exponent).toNat * Nat.pow 2 x.quarter.toNat

/-- Whether `coefficient * 10 ^ exponent` rounds to the magnitude of `x`. The ends of the interval round
    to `x` exactly if its significand is even. -/
def readsBack (x : Binary64) (coefficient : Nat) (exponent : Int) : Bool :=
  let point := x.decimalUnits coefficient exponent
  let low := x.quarterUnits x.lower exponent
  let high := x.quarterUnits x.upper exponent
  if x.significand % 2 = 0 then low ≤ point && point ≤ high else low < point && point < high

/-- The multiple of `10 ^ exponent` nearest to `x` among those that read back; of two equally near, the
    even one. -/
def nearest? (x : Binary64) (exponent : Int) : Option Nat :=
  let value := x.quarterUnits (4 * x.significand) exponent
  let below := value / x.decimalUnits 1 exponent
  let above := below + 1
  let toBelow := value - x.decimalUnits below exponent
  let toAbove := x.decimalUnits above exponent - value
  match x.readsBack below exponent, x.readsBack above exponent with
  | true, true =>
    some (if toBelow < toAbove || (toBelow = toAbove && below % 2 = 0) then below else above)
  | true, false => some below
  | false, true => some above
  | false, false => none

/-- The magnitude of a finite number written out in full. -/
def exact (x : Binary64) : Nat × Int :=
  if 0 ≤ x.scale then (x.significand * Nat.pow 2 x.scale.toNat, 0)
  else (x.significand * Nat.pow 5 (-x.scale).toNat, x.scale)

/-- Tries the powers of ten from `10 ^ exponent` downwards, `tries` of them. -/
def descend (x : Binary64) : Nat → Int → Nat × Int
  | 0, _ => x.exact
  | tries + 1, exponent =>
    match x.nearest? exponent with
    | some coefficient => (coefficient, exponent)
    | none => x.descend tries (exponent - 1)

/-- The shortest decimal, as a coefficient and a power of ten, for a finite magnitude other than zero.
    Seventeen digits always suffice, and the position of the leading bit gives the order of magnitude to
    within one. -/
def shortest (x : Binary64) : Nat × Int :=
  let order := (Nat.log2 x.significand + x.scale) * 1233 / 4096
  x.descend 21 (order + 2)

end Flowline.Binary64
