/-! # The numbers of a drawing

Coordinates, lengths and angles are taken from one scalar type, so that the rules of a drawing can
be read over any number system that offers these operations. An undefined number is one that is
not even `≤` itself; comparisons with it fail.
-/

namespace RingLayout

/-- A number system for drawings: arithmetic, both comparisons, and the functions of analysis
that placement needs. -/
class Scalar (K : Type) extends
    Add K, Sub K, Mul K, Div K, Neg K, LT K, LE K, BEq K, NatCast K, OfScientific K where
  [decidableLT : DecidableLT K]
  [decidableLE : DecidableLE K]
  /-- Neither undefined nor infinite. -/
  isFinite : K → Bool
  abs : K → K
  sqrt : K → K
  cos : K → K
  sin : K → K
  /-- The direction of the vector whose second coordinate comes first. -/
  atan2 : K → K → K
  ln : K → K
  pow : K → K → K
  /-- A full turn, 2π. -/
  turn : K
  /-- The remainder in `[0, m)` that `a` leaves modulo a positive `m`. -/
  emod : K → K → K
  /-- The floor, with 0 for whatever is undefined or negative. -/
  floorNat : K → Nat
  /-- The ceiling, with 0 for whatever is undefined or negative. -/
  ceilNat : K → Nat
  /-- The floor, with 0 for whatever is undefined. -/
  floorInt : K → Int
  /-- A total order that agrees with `≤` on distinct finite numbers, for sorting. -/
  sortLe : K → K → Bool

instance instDecidableLTOfScalar {K : Type} [Scalar K] : DecidableLT K := Scalar.decidableLT

instance instDecidableLEOfScalar {K : Type} [Scalar K] : DecidableLE K := Scalar.decidableLE

namespace Scalar

variable {K : Type} [Scalar K]

/-- The smaller of two numbers; an undefined one gives way to the other. -/
@[inline] def minNum (a b : K) : K := if b < a then b else if a ≤ a then a else b

/-- The larger of two numbers; an undefined one gives way to the other. -/
@[inline] def maxNum (a b : K) : K := if a < b then b else if a ≤ a then a else b

/-- The number of `[lo, hi]` nearest to `x`; an undefined `x` stays as it is. -/
@[inline] def clamp (x lo hi : K) : K := if x < lo then lo else if hi < x then hi else x

/-- 1, -1 or 0 with the sign of `x`. -/
@[inline] def sign (x : K) : K := if 0.0 < x then 1.0 else if x < 0.0 then -1.0 else 0.0

/-- The sum of a list, added up from its front. -/
@[specialize] def sum (xs : List K) : K := xs.foldl (· + ·) 0.0

end Scalar

end RingLayout
