import RingLayout.Scalar.Double

/-! # Shortest decimals

A double stands for every real number that rounds to it. Its shortest decimal is the one with the
fewest digits among those reals, and the nearest to the double of that length; of two equally near
ones the even one counts.
-/

namespace RingLayout.Decimal

def digitCount (n : Nat) : Nat := if n = 0 then 0 else (Nat.toDigits 10 n).length

/-- The exponent `p` with `10 ^ p ≤ num / den < 10 ^ (p + 1)`, for positive `num` and `den`. -/
def leadingExponent (num den : Nat) : Int :=
  if den ≤ num then (digitCount (num / den) : Int) - 1
  else -(digitCount ((den + num - 1) / num - 1) : Int)

/-- A grid point near a double: the digits, and how far they are from the double. -/
structure Candidate where
  digits : Nat
  distance : Nat

/-- The reals that round to `m * 2 ^ e`, over the common denominator `den`: `lo` and `hi` belong
to them only if `closed`. -/
structure Interval where
  lo : Nat
  mid : Nat
  hi : Nat
  den : Nat
  closed : Bool

/-- The interval of a positive double. Below a power of two the doubles are twice as dense. -/
def interval (m : Nat) (e : Int) : Interval :=
  let scale := Nat.pow 2 (e - 2).toNat
  let below := if m = Double.hiddenBit ∧ -1074 < e then 1 else 2
  ⟨(4 * m - below) * scale, 4 * m * scale, (4 * m + 2) * scale, Nat.pow 2 (2 - e).toNat,
    m % 2 = 0⟩

/-- The two multiples of `10 ^ k` around the middle of an interval, as far as they lie in it. -/
def Interval.candidates (i : Interval) (k : Int) : List Candidate :=
  let grid := Nat.pow 10 k.toNat * i.den
  let scale := Nat.pow 10 (-k).toNat
  let floor := i.mid * scale / grid
  [floor, floor + 1].filterMap fun d =>
    let point := d * grid
    let inside :=
      if i.closed then i.lo * scale ≤ point ∧ point ≤ i.hi * scale
      else i.lo * scale < point ∧ point < i.hi * scale
    if inside then some ⟨d, (point - i.mid * scale) + (i.mid * scale - point)⟩ else none

/-- The nearer of at most two candidates, the even one on a tie. -/
def nearest : List Candidate → Option Nat
  | [] => none
  | [a] => some a.digits
  | a :: b :: _ =>
    some <|
      if a.distance < b.distance then a.digits
      else if b.distance < a.distance then b.digits
      else if a.digits % 2 = 0 then a.digits else b.digits

/-- Moves trailing zeros of the digits into the exponent. -/
def stripZeros : Nat → Nat → Int → Nat × Int
  | 0, digits, k => (digits, k)
  | fuel + 1, digits, k =>
    if digits % 10 = 0 ∧ digits ≠ 0 then stripZeros fuel (digits / 10) (k + 1) else (digits, k)

/-- The shortest decimal `digits * 10 ^ k` of the positive double `m * 2 ^ e`. -/
def shortest (m : Nat) (e : Int) : Nat × Int :=
  let i := interval m e
  let lead := leadingExponent i.mid i.den
  let found := (List.range 17).findSome? fun n : Nat =>
    (nearest (i.candidates (lead - n))).map fun d => (d, lead - n)
  let (digits, k) := found.getD (0, 0)
  stripZeros 20 digits k

/-- An exponent as text, with its sign in any case: `e+16`, `e-7`. -/
def exponentText (n : Int) : List Char :=
  ['e', if n < 0 then '-' else '+'] ++ Nat.toDigits 10 n.natAbs

/-- A finite double as text: its shortest decimal, with a point between `1e-5` and `1e16` and with
an exponent outside. -/
def render (x : Float) : String :=
  let sign := if x.toBits >>> 63 == 0 then "" else "-"
  let (m, e) := Double.decompose x
  if m = 0 then sign ++ "0.0"
  else
    let (digits, k) := shortest m e
    let text := Nat.toDigits 10 digits
    let point : Int := text.length + k
    let zeros (n : Nat) := List.replicate n '0'
    let chars :=
      if 0 ≤ k ∧ point ≤ 16 then text ++ zeros k.toNat ++ ".0".toList
      else if 0 < point ∧ point ≤ 16 then text.take point.toNat ++ '.' :: text.drop point.toNat
      else if -5 < point ∧ point ≤ 0 then "0.".toList ++ zeros (-point).toNat ++ text
      else
        let fraction := if text.length = 1 then [] else '.' :: text.drop 1
        text.take 1 ++ fraction ++ exponentText (point - 1)
    sign ++ String.ofList chars

end RingLayout.Decimal
