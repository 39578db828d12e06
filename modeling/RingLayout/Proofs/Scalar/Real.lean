import Mathlib.Algebra.Order.Floor.Semifield
import Mathlib.Analysis.SpecialFunctions.Complex.Arg
import Mathlib.Analysis.SpecialFunctions.Pow.Real
import RingLayout.Run.Progress

/-! # Exact arithmetic

The real numbers as the scalars of a drawing. Over them the arithmetic of a drawing is exact, and
the shares of the steps make up one whole.
-/

namespace RingLayout

noncomputable instance instScalarReal : Scalar ℝ where
  decidableLT := inferInstance
  decidableLE := inferInstance
  beq x y := decide (x = y)
  isFinite _ := true
  abs x := |x|
  sqrt := Real.sqrt
  cos := Real.cos
  sin := Real.sin
  atan2 y x := Complex.arg ⟨x, y⟩
  ln := Real.log
  pow x y := x ^ y
  turn := 2 * Real.pi
  emod a m := a - m * ⌊a / m⌋
  floorNat x := ⌊x⌋₊
  ceilNat x := ⌈x⌉₊
  floorInt x := ⌊x⌋
  sortLe x y := decide (x ≤ y)

theorem Scalar.sum_real (xs : List ℝ) : Scalar.sum xs = xs.sum := by
  have hzero : (0.0 : ℝ) = 0 := by norm_num
  rw [List.sum_eq_foldl, ← hzero]
  rfl

/-- A full turn, 2π. -/
noncomputable def fullTurn : ℝ := 2 * Real.pi

theorem fullTurn_pos : 0 < fullTurn := Real.two_pi_pos

namespace Step

/-- The shares as fractions. -/
theorem share_real (s : Step) : (s.share : ℝ) =
    match s with
    | .settle => 1 / 5
    | .reverse => 1 / 5
    | .resettle => 1 / 10
    | .exchange => 7 / 20
    | .polish => 3 / 20
    | .done => 0 := by
  cases s <;> simp only [share] <;> norm_num

theorem share_nonneg (s : Step) : 0 ≤ (s.share : ℝ) := by
  rw [share_real]
  cases s <;> norm_num

/-- The whole iterations that a step gets out of `n`. -/
theorem floorNat_share_real (n : Nat) (s : Step) : Scalar.floorNat ((n : ℝ) * s.share) =
    match s with
    | .settle => n / 5
    | .reverse => n / 5
    | .resettle => n / 10
    | .exchange => 7 * n / 20
    | .polish => 3 * n / 20
    | .done => 0 := by
  have hfloor : ∀ m k : Nat, ⌊(n : ℝ) * (m / k)⌋₊ = m * n / k := by
    intro m k
    rw [mul_div_left_comm, ← mul_div_assoc, ← Nat.cast_mul, Nat.floor_div_eq_div]
  change ⌊(n : ℝ) * s.share⌋₊ = _
  rw [share_real]
  cases s with
  | settle => simpa using hfloor 1 5
  | reverse => simpa using hfloor 1 5
  | resettle => simpa using hfloor 1 10
  | exchange => exact hfloor 7 20
  | polish => exact hfloor 3 20
  | done => simp

end Step

namespace Run

/-- A budget is at most its share of all iterations. -/
theorem budgetFor_le (r : Run ℝ) (s : Step) :
    (r.budgetFor s : ℝ) ≤ r.options.iterations * s.share :=
  Nat.floor_le (mul_nonneg (Nat.cast_nonneg _) s.share_nonneg)

/-- In exact arithmetic the budgets of all steps together are at most the iterations allowed. -/
theorem totalBudget_le_iterations (r : Run ℝ) : r.totalBudget ≤ r.options.iterations := by
  have hsettle := r.budgetFor_le .settle
  have hreverse := r.budgetFor_le .reverse
  have hresettle := r.budgetFor_le .resettle
  have hexchange := r.budgetFor_le .exchange
  have hpolish := r.budgetFor_le .polish
  simp only [Step.share_real] at hsettle hreverse hresettle hexchange hpolish
  have hsum : ((r.totalBudget : ℕ) : ℝ) ≤ r.options.iterations := by
    rw [totalBudget]
    simp only [Step.active, List.foldr_cons, List.foldr_nil, Nat.cast_add, Nat.cast_zero]
    linarith
  exact_mod_cast hsum

end Run

end RingLayout
