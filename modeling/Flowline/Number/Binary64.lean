/-!
Binary floating-point numbers of 64 bits, held as their three fields, and the rounding of a ratio to the
nearest of them. All arithmetic is exact arithmetic on natural numbers.
-/

namespace Flowline

/-- `2 ^ 52`, the number of fractions between two neighbouring powers of two. -/
abbrev fractionCount : Nat := 4503599627370496

/-- A floating-point number: its sign, its biased exponent and the bits of its fraction. -/
structure Binary64 where
  negative : Bool
  exponent : Fin 2048
  fraction : Fin fractionCount
deriving DecidableEq, Repr

namespace Binary64

/-- Neither infinite nor a NaN. -/
def isFinite (x : Binary64) : Bool :=
  x.exponent.val < 2047

/-- The whole number whose multiple by `2 ^ x.scale` is the magnitude of a finite `x`. -/
def significand (x : Binary64) : Nat :=
  if x.exponent.val = 0 then x.fraction.val else fractionCount + x.fraction.val

/-- The power of two that the significand counts. -/
def scale (x : Binary64) : Int :=
  (max x.exponent.val 1 : Nat) - 1075

/-- Zero with a sign. -/
def zero (negative : Bool) : Binary64 :=
  ⟨negative, 0, 0⟩

/-- Infinity with a sign. -/
def infinity (negative : Bool) : Binary64 :=
  ⟨negative, 2047, 0⟩

/-- The number that is none. -/
def nan : Binary64 :=
  ⟨false, 2047, 1⟩

/-- The magnitudes of one sign in ascending order, counted from zero; beyond the last finite one stands
    infinity. -/
def ofRank (negative : Bool) (rank : Nat) : Binary64 :=
  if h : rank / fractionCount < 2047 then
    ⟨negative, ⟨rank / fractionCount, Nat.lt_succ_of_lt h⟩, ⟨rank % fractionCount, Nat.mod_lt _ (by decide)⟩⟩
  else infinity negative

/-- The whole number nearest to `num / den`; of two equally near, the even one. -/
def roundDiv (num den : Nat) : Nat :=
  let quotient := num / den
  let twice := 2 * (num % den)
  if twice < den || (twice = den && quotient % 2 = 0) then quotient else quotient + 1

/-- The greatest `k` with `2 ^ k ≤ num / den`, for positive `num` and `den`. -/
def floorLog (num den : Nat) : Int :=
  let guess : Int := (Nat.log2 num : Int) - Nat.log2 den
  if den * Nat.pow 2 guess.toNat ≤ num * Nat.pow 2 (-guess).toNat then guess else guess - 1

/-- The number nearest to `num / den` in magnitude; of two equally near, the one with the even
    significand. -/
def ofRatio (negative : Bool) (num den : Nat) : Binary64 :=
  if num = 0 then zero negative
  else
    let scale := max (floorLog num den - 52) (-1074)
    let significand := roundDiv (num * Nat.pow 2 (-scale).toNat) (den * Nat.pow 2 scale.toNat)
    ofRank negative ((scale + 1074).toNat * fractionCount + significand)

end Binary64

end Flowline
