import RingLayout.Proofs.Scalar.Real

/-! # Ordered scalars

In exact arithmetic any two numbers can be compared, sorting goes by this order, and the sign of a
product comes from those of its factors. An undefined number breaks all of this.
-/

namespace RingLayout

/-- Scalars that are ordered like the elements of an ordered field. -/
class OrderedScalar (K : Type) [Scalar K] : Prop where
  le_total : ∀ x y : K, x ≤ y ∨ y ≤ x
  le_trans : ∀ x y z : K, x ≤ y → y ≤ z → x ≤ z
  le_antisymm : ∀ x y : K, x ≤ y → y ≤ x → x = y
  lt_iff_not_le : ∀ x y : K, x < y ↔ ¬y ≤ x
  sortLe_iff : ∀ x y : K, Scalar.sortLe x y = true ↔ x ≤ y
  mul_pos_iff : ∀ x y : K, 0.0 < x * y ↔ 0.0 < x ∧ 0.0 < y ∨ x < 0.0 ∧ y < 0.0

namespace OrderedScalar

variable {K : Type} [Scalar K] [OrderedScalar K] {x y : K}

theorem not_le : ¬x ≤ y ↔ y < x := (lt_iff_not_le y x).symm

theorem lt_or_eq_of_le (h : x ≤ y) : x < y ∨ x = y := by
  rw [lt_iff_not_le]
  exact (Classical.em (y ≤ x)).symm.imp id fun hyx => le_antisymm x y h hyx

end OrderedScalar

instance instOrderedScalarReal : OrderedScalar ℝ where
  le_total := le_total
  le_trans _ _ _ := le_trans
  le_antisymm _ _ := le_antisymm
  lt_iff_not_le _ _ := not_le.symm
  sortLe_iff _ _ := decide_eq_true_iff
  mul_pos_iff x y := by
    have hzero : (0.0 : ℝ) = 0 := by norm_num
    rw [hzero]
    exact mul_pos_iff

end RingLayout
