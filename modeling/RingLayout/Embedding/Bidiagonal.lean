import RingLayout.Embedding.Linear

/-! # Bidiagonal form

Every square matrix is an orthogonal matrix times a bidiagonal one times the transpose of an
orthogonal one. Reflections lead there: by turns they clear a column below the diagonal and a row
from the second entry after the diagonal on.
-/

namespace RingLayout.Linear

open Scalar

variable {K : Type} [Scalar K]

/-- The orthogonal map `sign * (1 - 2 * axis * axisᵀ)`. It takes a certain vector to the first unit
vector times `size`, the length of that vector. -/
structure Reflection (K : Type) where
  axis : Array K
  sign : K
  size : K

namespace Reflection

/-- The reflection for a vector; a vector of length 0 needs none. -/
@[specialize] def ofVector (xs : Array K) : Reflection K :=
  let square := dot xs xs
  let size := sqrt square
  let first := xs.getD 0 0.0
  let factor := (square + Scalar.abs first * size) * 2.0
  if factor == 0.0 then ⟨xs.map fun _ => 0.0, 1.0, size⟩
  else
    let shift := if first < 0.0 then -size else size
    let length := sqrt factor
    let axis := (xs.modify 0 (· + shift)).map (· / length)
    let correction := norm axis
    ⟨axis.map (· / correction), if first < 0.0 then 1.0 else -1.0, size⟩

@[specialize] def apply (r : Reflection K) (xs : Array K) : Array K :=
  mix (dot r.axis xs * (r.sign * -2.0)) r.sign r.axis xs

end Reflection

/-- The matrix with the given columns as rows, where these have `n` entries each. -/
@[specialize] def transpose (n : Nat) (columns : Array (Array K)) : Array (Array K) :=
  Array.ofFn fun i : Fin n => columns.map fun column => column.getD i 0.0

/-- An `n` by `n` matrix with a new first row and column, which hold 1 where they meet and 0
elsewhere. -/
@[specialize] def bordered (n : Nat) (columns : Array (Array K)) : Array (Array K) :=
  #[#[1.0] ++ Array.replicate n 0.0] ++ columns.map fun column => #[0.0] ++ column

/-- The product of an orthogonal matrix, given by its columns `left`, a matrix with entries only on
the diagonal and right above it, and the transpose of an orthogonal matrix, given by its columns
`right`. -/
structure Bidiagonal (K : Type) where
  left : Array (Array K)
  diagonal : Array K
  upper : Array K
  right : Array (Array K)

/-- The bidiagonal form of an `n` by `n` matrix. -/
@[specialize] def Bidiagonal.ofColumns : Nat → Array (Array K) → Bidiagonal K
  | 0, _ => ⟨#[], #[], #[], #[]⟩
  | n + 1, columns =>
    let down := Reflection.ofVector (columns.getD 0 #[])
    let rows := transpose (n + 1) ((columns.extract 1 (n + 1)).map down.apply)
    let across := Reflection.ofVector (rows.getD 0 #[])
    let rest := ofColumns n (transpose n ((rows.extract 1 (n + 1)).map across.apply))
    { left := (bordered n rest.left).map down.apply
      diagonal := #[down.size] ++ rest.diagonal
      upper := if n = 0 then #[] else #[across.size] ++ rest.upper
      right := bordered n (rest.right.map across.apply) }

end RingLayout.Linear
