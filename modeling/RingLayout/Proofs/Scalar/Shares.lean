import RingLayout.Proofs.Scalar.Double
import RingLayout.Proofs.Scalar.Real

/-! # Budgets in the scalars

Exchanges have the largest share of the iterations. So if any step has a budget, the step of the
exchanges has one: in exact arithmetic, and in double precision for whatever number of iterations.
-/

namespace RingLayout

open Scalar

/-- Scalars whose rounding leaves the step of the exchanges a budget if any step has one. -/
class LawfulShares (K : Type) [Scalar K] : Prop where
  exchange_pos : ∀ (n : Nat) (s : Step), 0 < floorNat ((n : K) * s.share) →
    0 < floorNat ((n : K) * Step.exchange.share)

/-- If any step has a budget, the step of the exchanges has one. -/
theorem Run.budgetFor_exchange_pos {K : Type} [Scalar K] [LawfulShares K] {r : Run K} {s : Step}
    (h : 0 < r.budgetFor s) : 0 < r.budgetFor .exchange :=
  LawfulShares.exchange_pos _ s h

theorem Step.share_le_exchange (s : Step) : (s.share : ℝ) ≤ Step.exchange.share := by
  rw [share_real, share_real]
  cases s <;> norm_num

instance instLawfulSharesReal : LawfulShares ℝ where
  exchange_pos n s h := by
    have hle : (n : ℝ) * s.share ≤ n * Step.exchange.share :=
      mul_le_mul_of_nonneg_left s.share_le_exchange (Nat.cast_nonneg n)
    exact Nat.lt_of_lt_of_le h (Nat.floor_mono hle)

namespace Double

/-- Up to two iterations no step has a budget. -/
theorem floorNat_share_of_lt {n : Nat} (hn : n < 3) (s : Step) :
    floorNat ((n : Float) * s.share) = 0 := by
  have hsmall : ∀ m < 3, floorNat (((m : Nat) : Float) * s.share) = 0 := by
    cases s <;> decide +kernel
  exact hsmall n hn

/-- From three iterations on the exchanges have a budget. -/
theorem floorNat_exchange_pos {n : Nat} (hn : 3 ≤ n) :
    0 < floorNat ((n : Float) * Step.exchange.share) := by
  rcases Nat.eq_or_lt_of_le hn with rfl | hn
  · decide +kernel
  · -- the product is at least 4 times 1/4
    have hlog : 2 ≤ n.log2 := (Nat.le_log2 (by omega)).mpr hn
    have hcast : FloatAtLeast 2 (n : Float) :=
      floatAtLeast_mono (by omega : (2 : Int) ≤ n.log2) (floatAtLeast_ofNat (by omega))
    have hquarter : FloatAtLeast (-2) (Step.exchange.share : Float) := by decide +kernel
    exact toUInt64_pos (floatAtLeast_mul hcast hquarter (by decide))

end Double

instance instLawfulSharesFloat : LawfulShares Float where
  exchange_pos n s h := by
    by_cases hn : n < 3
    · rw [Double.floorNat_share_of_lt hn] at h
      exact absurd h (Nat.lt_irrefl 0)
    · exact Double.floorNat_exchange_pos (Nat.le_of_not_lt hn)

end RingLayout
