import RingLayout.Embedding.Bidiagonal

/-! # Singular values

Plane rotations take a bidiagonal matrix to a diagonal one. Where an entry above the diagonal is
negligible, the matrix falls into blocks; a block of two rows is solved directly, and a greater one
is swept until an entry beside its last row becomes negligible.
-/

namespace RingLayout.Linear

open Scalar

variable {K : Type} [Scalar K]

/-- The length of `(x, y)`: a root, less its first-order error. -/
@[specialize] def hypotenuse (x y : K) : K :=
  let a := maxNum (Scalar.abs x) (Scalar.abs y)
  let b := minNum (Scalar.abs x) (Scalar.abs y)
  let h := sqrt (a * a + b * b)
  let excess :=
    if h ≤ 2.0 * b then
      let d := h - b
      a * (2.0 * d - a) + (d - 2.0 * (a - b)) * d
    else
      let d := h - a
      2.0 * d * (a - 2.0 * b) + ((4.0 * d - b) * b + d * d)
  h - excess / (2.0 * h)

/-- A rotation of the plane, by its cosine and sine. -/
structure Rotation (K : Type) where
  c : K
  s : K

namespace Rotation

/-- The rotation by at most a quarter turn that takes `(x, y)` to the first axis, and the
coordinate there. -/
@[specialize] def ofPair (x y : K) : Rotation K × K :=
  let size := sqrt (x * x + y * y)
  if 0.0 < size then
    let signed := if x < 0.0 then -size else size
    (⟨Scalar.abs x / size, -y / signed⟩, signed)
  else (⟨1.0, 0.0⟩, 0.0)

@[specialize] def turnPair (r : Rotation K) (x y : K) : K × K :=
  (r.c * x - r.s * y, r.s * x + r.c * y)

@[specialize] def turnColumns (r : Rotation K) (i j : Nat) (columns : Array (Array K)) :
    Array (Array K) :=
  let x := columns.getD i #[]
  let y := columns.getD j #[]
  (columns.setIfInBounds i (mix r.c (-r.s) x y)).setIfInBounds j (mix r.s r.c x y)

end Rotation

namespace Bidiagonal

/-- The size below which an entry of a matrix with entries up to 1 counts as zero. -/
def precision : K := 2.220446049250313e-16

@[inline] def onDiagonal (b : Bidiagonal K) (i : Nat) : K := b.diagonal.getD i 0.0

/-- The entry of row `i` right of the diagonal. -/
@[inline] def above (b : Bidiagonal K) (i : Nat) : K := b.upper.getD i 0.0

@[inline] def setDiagonal (b : Bidiagonal K) (i : Nat) (x : K) : Bidiagonal K :=
  { b with diagonal := b.diagonal.setIfInBounds i x }

@[inline] def setAbove (b : Bidiagonal K) (i : Nat) (x : K) : Bidiagonal K :=
  { b with upper := b.upper.setIfInBounds i x }

@[inline] def turnLeft (b : Bidiagonal K) (r : Rotation K) (i j : Nat) : Bidiagonal K :=
  { b with left := r.turnColumns i j b.left }

@[inline] def turnRight (b : Bidiagonal K) (r : Rotation K) (i j : Nat) : Bidiagonal K :=
  { b with right := r.turnColumns i j b.right }

/-- Whether the entry of row `i` right of the diagonal is small beside its neighbours. -/
@[specialize] def isNegligible (b : Bidiagonal K) (i : Nat) : Bool :=
  Scalar.abs (b.above i) ≤
    precision * (Scalar.abs (b.onDiagonal (i + 1)) + Scalar.abs (b.onDiagonal i))

/-- Removes an entry `x` of row `j`, whose diagonal entry is 0, against the diagonal entries of the
given columns: each takes it up and hands a smaller one on to the column after it. -/
@[specialize] def clearRow (j : Nat) : List Nat → K → Bidiagonal K → Bidiagonal K
  | [], _, b => b
  | k :: ks, x, b =>
    if x == 0.0 then b
    else
      let (r, size) := Rotation.ofPair (b.onDiagonal k) x
      let next := r.s * b.above k
      clearRow j ks next
        (((b.setDiagonal k size).setAbove k (b.above k * r.c)).turnLeft r k j)

/-- Removes an entry `x` of column `j`, whose diagonal entry is 0 or apart, against the diagonal
entries of row `k` and the rows above it. -/
@[specialize] def clearColumn (j : Nat) : Nat → K → Bidiagonal K → Bidiagonal K
  | k, x, b =>
    if x == 0.0 then b
    else
      let (r, size) := Rotation.ofPair (b.onDiagonal k) x
      let b := (b.setDiagonal k size).turnRight r k j
      match k with
      | 0 => b
      | i + 1 => clearColumn j i (r.s * b.above i) (b.setAbove i (b.above i * r.c))

/-- Makes the diagonal entry `i` zero and clears its row, up to column `last`, and its column. -/
@[specialize] def isolate (i last : Nat) (b : Bidiagonal K) : Bidiagonal K :=
  let row := List.range' (i + 1) (last - i)
  let b := clearRow i row (b.above i) ((b.setDiagonal i 0.0).setAbove i 0.0)
  match i with
  | 0 => b
  | h + 1 => clearColumn i h (b.above h) (b.setAbove h 0.0)

/-- The last index of the last block above or at the given index that is not yet diagonal; 0 if all
are. Negligible entries become zero on the way. -/
@[specialize] def lastCoupled : Nat → Bidiagonal K → Nat × Bidiagonal K
  | 0, b => (0, b)
  | i + 1, b =>
    if b.isNegligible i then lastCoupled i (b.setAbove i 0.0)
    else if Scalar.abs (b.onDiagonal i) ≤ precision then lastCoupled i (isolate i (i + 1) b)
    else if Scalar.abs (b.onDiagonal (i + 1)) ≤ precision then
      lastCoupled i
        (clearColumn (i + 1) i (b.above i) ((b.setDiagonal (i + 1) 0.0).setAbove i 0.0))
    else (i + 1, b)

/-- The first index of the block that ends with `last` and holds the given index. -/
@[specialize] def firstCoupled (last : Nat) : Nat → Bidiagonal K → Nat × Bidiagonal K
  | 0, b => (0, b)
  | i + 1, b =>
    if b.isNegligible i then (i + 1, b.setAbove i 0.0)
    else if Scalar.abs (b.onDiagonal i) ≤ precision then (i + 1, isolate i last b)
    else firstCoupled last i b

@[specialize] def solvePair (i : Nat) (b : Bidiagonal K) : Bidiagonal K :=
  let p := b.onDiagonal i
  let q := b.above i
  let r := b.onDiagonal (i + 1)
  let span := hypotenuse (p + r) q + hypotenuse (p - r) q
  let small := p * r * 2.0 / span
  let large := 0.5 * span
  let (right, size) := Rotation.ofPair (p * q) (small * small - p * p)
  let small := small * size
  let large := large * size
  let (left, size) :=
    Rotation.ofPair ((p * right.c - q * right.s) / small) (r * -right.s / small)
  let b := ((b.setDiagonal i (small * size)).setDiagonal (i + 1) (large * size)).setAbove i 0.0
  (b.turnLeft left i (i + 1)).turnRight right i (i + 1)

/-- The eigenvalue nearest to `z` of the symmetric matrix with diagonal `x`, `z` and the entry `y`
beside it. -/
@[specialize] def nearerEigenvalue (x y z : K) : K :=
  let square := y * y
  if square == 0.0 then z
  else
    let d := (x - z) * 0.5
    let root := sqrt (d * d + square)
    z - square / (d + if d < 0.0 then -root else root)

/-- Takes a sweep over the given rows of the block that begins with `first`. The rotation of each
row is that of `(x, y)`, and makes an entry outside the two diagonals, which the next one
removes. -/
@[specialize] def sweepRows (first : Nat) : List Nat → K → K → Bidiagonal K → Bidiagonal K
  | [], _, _, b => b
  | k :: ks, x, y, b =>
    if y == 0.0 then b
    else
      let (r, size) := Rotation.ofPair x y
      let (p, q) := r.turnPair (b.onDiagonal k) (b.above k)
      let (below, next) := r.turnPair 0.0 (b.onDiagonal (k + 1))
      let b := if first < k then b.setAbove (k - 1) size else b
      let (l, corner) := Rotation.ofPair p below
      let (q, next) := l.turnPair q next
      let (outside, beyond) := l.turnPair 0.0 (b.above (k + 1))
      let b := (b.setDiagonal k corner).setDiagonal (k + 1) next
      let b := (b.setAbove k q).setAbove (k + 1) beyond
      sweepRows first ks q outside ((b.turnRight r k (k + 1)).turnLeft l k (k + 1))

/-- One sweep over the block of rows `first` to `last`, of which there are at least three, shifted
by the square of an approximate singular value. -/
@[specialize] def sweep (first last : Nat) (b : Bidiagonal K) : Bidiagonal K :=
  let p := b.onDiagonal (last - 1)
  let q := b.above (last - 1)
  let r := b.onDiagonal last
  let o := b.above (last - 2)
  let shift := nearerEigenvalue (p * p + o * o) (p * q) (r * r + q * q)
  let d := b.onDiagonal first
  sweepRows first (List.range' first (last - first)) (d * d - shift) (d * b.above first) b

/-- Makes the rows up to `last` diagonal, in at most the given number of steps. -/
@[specialize] def diagonalize : Nat → Nat → Bidiagonal K → Bidiagonal K
  | 0, _, b => b
  | steps + 1, last, b =>
    let (last, b) := lastCoupled last b
    if last = 0 then b
    else
      let (first, b) := firstCoupled last (last - 1) b
      if first + 1 = last then diagonalize steps first (solvePair first b)
      else diagonalize steps last (sweep first last b)

end Bidiagonal

/-- A singular value of a matrix with its directions: the matrix is the sum of all
`value * left * rightᵀ`. -/
structure SingularTriple (K : Type) where
  value : K
  left : Array K
  right : Array K

@[specialize] def greatestEntry (columns : Array (Array K)) : K :=
  columns.foldl (fun m column => column.foldl (fun m x => maxNum m (Scalar.abs x)) m) 0.0

/-- The singular values of a square matrix, the greatest first. They are those of the matrix scaled
to entries up to 1, times the scale. -/
@[specialize] def singularTriples (columns : Array (Array K)) : List (SingularTriple K) :=
  let n := columns.size
  let greatest := greatestEntry columns
  let scaled := if greatest == 0.0 then columns else columns.map (·.map (· / greatest))
  let b := Bidiagonal.diagonalize (100 * n) (n - 1) (Bidiagonal.ofColumns n scaled)
  let triples := (List.range n).map fun i =>
    let value := b.onDiagonal i * greatest
    let left := b.left.getD i #[]
    let right := b.right.getD i #[]
    if value < 0.0 then ⟨-value, left.map (-·), right⟩ else ⟨value, left, right⟩
  triples.mergeSort fun t u => decide (u.value ≤ t.value)

/-- The inverse of a square matrix with small singular values damped away: a singular value `s` is
inverted as `s / (s * s + m / (s * s))`, where `m` is the cube of the greatest one. -/
@[specialize] def dampedInverse (columns : Array (Array K)) : Array (Array K) :=
  let triples := singularTriples columns
  let greatest := triples.foldl (fun m t => maxNum m t.value) 0.0
  let cube := greatest * greatest * greatest
  let invert (s : K) : K :=
    let square := s * s
    if square == 0.0 then 0.0
    else
      let denominator := square + cube / square
      if Scalar.isFinite denominator && !(denominator == 0.0) then s / denominator else 0.0
  let terms := triples.map fun t => (scale (invert t.value) t.right, t.left)
  let n := columns.size
  Array.ofFn fun j : Fin n => Array.ofFn fun i : Fin n =>
    terms.foldl (fun acc (v, u) => acc + v.getD i 0.0 * u.getD j 0.0) 0.0

end RingLayout.Linear
