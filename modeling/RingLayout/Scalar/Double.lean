import RingLayout.Scalar

/-! # Double precision

The binary64 numbers as the scalars of a drawing. The remainder is exact: a finite number is an
integer multiple of a power of two, and the remainder of two such multiples is one as well.
-/

namespace RingLayout.Double

/-- The leading bit of the 53-bit integer of a normal number, which is not stored. -/
def hiddenBit : Nat := 4503599627370496

/-- The integer `m` and the exponent `e` of a finite number of magnitude `m * 2 ^ e`. -/
def decompose (x : Float) : Nat × Int :=
  let bits := x.toBits.toNat
  let fraction := bits % hiddenBit
  let exponent := bits / hiddenBit % 2048
  if exponent = 0 then (fraction, -1074) else (fraction + hiddenBit, (exponent : Int) - 1075)

/-- The remainder of `|a|` modulo `|m|`, computed on integers. -/
def absRemainder (a m : Float) : Float :=
  let (p, i) := decompose a
  let (q, j) := decompose m
  let e := min i j
  Float.scaleB (Float.ofNat ((p <<< (i - e).toNat) % (q <<< (j - e).toNat))) e

/-- The remainder of `a` modulo `m` with the sign of `a`. -/
def truncatedRemainder (a m : Float) : Float :=
  if a.abs < m.abs then a
  else
    let r := absRemainder a m
    if a < 0 then -r else r

/-- The remainder in `[0, |m|)`, up to the rounding of a last addition of `|m|`. -/
def euclideanRemainder (a m : Float) : Float :=
  let r := truncatedRemainder a m
  if r < 0 then r + m.abs else r

/-- The sort key of a number: negative numbers by falling magnitude, then the others by rising
magnitude, -0 before 0. -/
def sortKey (x : Float) : UInt64 :=
  let bits := x.toBits
  if bits >>> 63 == 0 then bits ||| 0x8000000000000000 else ~~~bits

end RingLayout.Double

namespace RingLayout

@[inline] instance instScalarFloat : Scalar Float where
  decidableLT := inferInstance
  decidableLE := inferInstance
  natCast := Float.ofNat
  isFinite := Float.isFinite
  abs := Float.abs
  sqrt := Float.sqrt
  cos := Float.cos
  sin := Float.sin
  atan2 := Float.atan2
  ln := Float.log
  pow := Float.pow
  turn := 6.283185307179586
  emod := Double.euclideanRemainder
  floorNat x := x.toUInt64.toNat
  ceilNat x := x.ceil.toUInt64.toNat
  floorInt x := x.floor.toInt64.toInt
  sortLe a b := decide (Double.sortKey a ≤ Double.sortKey b)

end RingLayout
