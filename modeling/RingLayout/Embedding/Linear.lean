import RingLayout.Scalar

/-! # Linear algebra on coordinate lists

Vectors are arrays of numbers and matrices are arrays of columns.
-/

namespace RingLayout.Linear

open Scalar

variable {K : Type} [Scalar K]

/-- The sum of the products of corresponding entries, added up from the front. -/
@[specialize] def sumOfProducts (xs ys : Array K) : K :=
  Nat.fold (min xs.size ys.size) (fun i _ acc => acc + xs.getD i 0.0 * ys.getD i 0.0) 0.0

/-- The sum of the products of the entries at `i`, `i + 8`, `i + 16` and so on, in `blocks` blocks
of eight. -/
@[specialize] def laneSum (xs ys : Array K) (blocks i : Nat) : K :=
  Nat.fold blocks
    (fun b _ acc => acc + xs.getD (8 * b + i) 0.0 * ys.getD (8 * b + i) 0.0) 0.0

/-- The scalar product: whole blocks of eight entries are added up in eight lanes, which are then
joined in pairs, and what is left over follows from the front. -/
@[specialize] def dot (xs ys : Array K) : K :=
  let n := min xs.size ys.size
  let blocks := n / 8
  let lane := laneSum xs ys blocks
  let lanes := (List.range 4).foldl (fun acc i => acc + (lane i + lane (i + 4))) 0.0
  Nat.fold (n % 8)
    (fun i _ acc => acc + xs.getD (8 * blocks + i) 0.0 * ys.getD (8 * blocks + i) 0.0) lanes

@[specialize] def norm (xs : Array K) : K := sqrt (dot xs xs)

@[specialize] def scale (s : K) (xs : Array K) : Array K := xs.map (· * s)

@[specialize] def mix (a b : K) (xs ys : Array K) : Array K :=
  Array.zipWith (fun x y => a * x + b * y) xs ys

/-- A vector divided by its norm, where the norm is finite and positive. -/
@[specialize] def normalize (xs : Array K) : Array K :=
  let n := norm xs
  if Scalar.isFinite n && decide (0.0 < n) then xs.map (· / n) else xs

@[specialize] def center (xs : Array K) : Array K :=
  let mean := xs.foldl (· + ·) 0.0 / (xs.size : K)
  xs.map (· - mean)

/-- `xs` less its part along `u`. -/
@[specialize] def reject (u xs : Array K) : Array K :=
  let s := dot u xs
  Array.zipWith (fun x y => x - y * s) xs u

/-- The sum of the columns of a matrix, each times its coefficient. -/
@[specialize] def combine (rows : Nat) (columns : Array (Array K)) (coefficients : Array K) :
    Array K :=
  Nat.fold columns.size
    (fun i _ acc =>
      let t := coefficients.getD i 0.0
      Array.zipWith (fun s x => s + x * t) acc (columns.getD i #[]))
    (Array.replicate rows 0.0)

/-- The products of a vector with the columns of a matrix. -/
@[specialize] def products (columns : Array (Array K)) (xs : Array K) : Array K :=
  columns.map (sumOfProducts · xs)

end RingLayout.Linear
