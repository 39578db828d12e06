import Mathlib.Data.Real.Sign
import RingLayout.Box.Force
import RingLayout.Proofs.Angles.Chords
import RingLayout.Proofs.Tiling

/-! # Forces between separate boxes

The points where the line of centers leaves two separate boxes never pass each other, so the gap
between them leads from one center towards the other or nowhere. A small component that is made
larger keeps its way, and so do the forces: what one box feels is the negative of what the other
feels, it leads along each axis towards the other box or away from it, and no repulsion is stronger
than at the least gap. Along an axis with a gap there is a force, but for a spring at rest.
-/

namespace RingLayout

theorem Scalar.sign_real (x : ℝ) : Scalar.sign x = Real.sign x := by
  have hzero : (0.0 : ℝ) = 0 := by norm_num
  have hone : (1.0 : ℝ) = 1 := by norm_num
  rw [Scalar.sign, hzero, hone]
  rcases lt_trichotomy x 0 with hx | rfl | hx
  · rw [if_neg hx.not_gt, if_pos hx, Real.sign_of_neg hx]
  · simp
  · rw [if_pos hx, Real.sign_of_pos hx]

/-- Along an axis `x` leads the way of `d`, or nowhere. -/
def Leads (x d : ℝ) : Prop := x = 0 ∨ 0 < x * d

namespace Leads

variable {x y d : ℝ}

theorem refl (x : ℝ) : Leads x x := (eq_or_ne x 0).imp id mul_self_pos.mpr

theorem trans (h : Leads x y) (h' : Leads y d) : Leads x d := by
  rcases h with rfl | hxy
  · exact Or.inl rfl
  · rcases h' with rfl | hyd
    · rw [mul_zero] at hxy
      exact absurd hxy (lt_irrefl 0)
    · right
      have hproduct : 0 < (x * d) * (y * y) := by
        rw [show x * d * (y * y) = x * y * (y * d) by ring]
        exact mul_pos hxy hyd
      exact pos_of_mul_pos_left hproduct (mul_self_nonneg y)

/-- Factors that are positive do not turn round. -/
theorem const_mul {c : ℝ} (hc : 0 ≤ c) (h : Leads x d) : Leads (c * x) d := by
  rcases hc.eq_or_lt with rfl | hc
  · exact Or.inl (zero_mul x)
  · apply h.imp
    · rintro rfl
      exact mul_zero c
    · intro hpos
      rw [mul_assoc]
      exact mul_pos hc hpos

theorem mul_div {c n : ℝ} (hc : 0 ≤ c) (hn : 0 ≤ n) (h : Leads x d) : Leads (c * (x / n)) d := by
  rw [← mul_div_assoc, mul_div_right_comm]
  exact h.const_mul (div_nonneg hc hn)

/-- The opposite leads the opposite way. -/
theorem opposite {p q : ℝ} (h : Leads x (q - p)) : Leads (-x) (p - q) := by
  rw [← neg_sub q p]
  exact h.imp neg_eq_zero.mpr fun hpos => by rwa [neg_mul_neg]

end Leads

namespace Box

/-! ## Small numbers -/

/-- A number without what is taken for noise. -/
noncomputable def settled (x : ℝ) : ℝ := if |x| < 1e-9 then 0 else x

theorem settled_neg (x : ℝ) : settled (-x) = -settled x := by
  rw [settled, settled, abs_neg]
  split
  · exact neg_zero.symm
  · rfl

theorem leads_settled (x : ℝ) : Leads (settled x) x := by
  rw [settled]
  split
  next => exact Or.inl rfl
  next h =>
    right
    have hpos : 0 < |x| := lt_of_lt_of_le (by norm_num) (not_lt.mp h)
    exact mul_self_pos.mpr (abs_pos.mp hpos)

/-- A number that counts as `least` at least, if it is not zero. -/
noncomputable def widened (least x : ℝ) : ℝ := if |x| < least then Real.sign x * least else x

theorem widened_neg (least x : ℝ) : widened least (-x) = -widened least x := by
  rw [widened, widened, abs_neg, Real.sign_neg]
  split
  · exact neg_mul _ _
  · rfl

theorem leads_widened {least : ℝ} (hleast : 0 < least) (x : ℝ) : Leads (widened least x) x := by
  rcases eq_or_ne x 0 with rfl | hx
  · left
    rw [widened, abs_zero, if_pos hleast, Real.sign_zero, zero_mul]
  · right
    rw [widened]
    split
    · rw [mul_right_comm]
      exact mul_pos (Real.sign_mul_pos_of_ne_zero x hx) hleast
    · exact mul_self_pos.mpr hx

theorem le_abs_widened {least x : ℝ} (hleast : 0 < least) (h : widened least x ≠ 0) :
    least ≤ |widened least x| := by
  rw [widened] at h ⊢
  split at h
  next hlt =>
    have hsign : |Real.sign x| = 1 := by
      rcases Real.sign_apply_eq x with hx | hx | hx
      · rw [hx, abs_neg, abs_one]
      · rw [hx, zero_mul] at h
        exact absurd rfl h
      · rw [hx, abs_one]
    rw [if_pos hlt, abs_mul, hsign, one_mul, abs_of_pos hleast]
  next hge =>
    rw [if_neg hge]
    exact not_lt.mp hge

theorem widened_eq_zero_iff {least x : ℝ} (hleast : 0 < least) : widened least x = 0 ↔ x = 0 := by
  rw [widened]
  split
  next => rw [mul_eq_zero, or_iff_left hleast.ne', Real.sign_eq_zero_iff]
  next => exact Iff.rfl

variable {a b : Box ℝ}

/-! ## The gap -/

/-- The share of the way from the center of `a` to the center of `b` that lies in `a`. -/
noncomputable def exitShare (a b : Box ℝ) : ℝ :=
  let reach (half d : ℝ) : ℝ := max 0 (half / |d|)
  if b.centerX = a.centerX then reach a.halfHeight (b.centerY - a.centerY)
  else if b.centerY = a.centerY then reach a.halfWidth (b.centerX - a.centerX)
  else min (reach a.halfHeight (b.centerY - a.centerY)) (reach a.halfWidth (b.centerX - a.centerX))

theorem exitTowards_eq (a b : Box ℝ) : exitTowards a b =
    ⟨a.centerX + exitShare a b * (b.centerX - a.centerX),
      a.centerY + exitShare a b * (b.centerY - a.centerY)⟩ := by
  have hzero : (0.0 : ℝ) = 0 := by norm_num
  have hbeq : ∀ x : ℝ, (x == 0) = decide (x = 0) := fun _ => rfl
  simp only [exitTowards, exitShare, hzero, hbeq, sub_eq_zero, Scalar.minNum_real,
    Scalar.maxNum_real, Bool.and_eq_true, decide_eq_true_eq]
  split
  next hsame =>
    rw [hsame.1, hsame.2, sub_self, sub_self, mul_zero, add_zero, add_zero]
    rfl
  next => rfl

/-- The share of the way between the centers that lies between the boxes. -/
noncomputable def gapShare (a b : Box ℝ) : ℝ := 1 - exitShare a b - exitShare b a

theorem gap_eq (a b : Box ℝ) : gap a b =
    ⟨settled (gapShare a b * (b.centerX - a.centerX)),
      settled (gapShare a b * (b.centerY - a.centerY))⟩ := by
  have hzero : (0.0 : ℝ) = 0 := by norm_num
  have hx : b.centerX + exitShare b a * (a.centerX - b.centerX) -
      (a.centerX + exitShare a b * (b.centerX - a.centerX)) =
        gapShare a b * (b.centerX - a.centerX) := by
    rw [gapShare]
    ring
  have hy : b.centerY + exitShare b a * (a.centerY - b.centerY) -
      (a.centerY + exitShare a b * (b.centerY - a.centerY)) =
        gapShare a b * (b.centerY - a.centerY) := by
    rw [gapShare]
    ring
  rw [gap, exitTowards_eq, exitTowards_eq]
  dsimp only
  rw [hx, hy, hzero]
  rfl

theorem gapShare_comm (a b : Box ℝ) : gapShare b a = gapShare a b := sub_right_comm ..

theorem gap_comm (a b : Box ℝ) : gap b a = ⟨-(gap a b).x, -(gap a b).y⟩ := by
  rw [gap_eq, gap_eq, gapShare_comm, ← neg_sub b.centerX, ← neg_sub b.centerY, mul_neg, mul_neg,
    settled_neg, settled_neg]

theorem reach_eq {side distance : ℝ} (hside : 0 < side) :
    max 0 (side / 2.0 / |distance|) = side / 2 / |distance| := by
  have htwo : (2.0 : ℝ) = 2 := by norm_num
  rw [htwo]
  exact max_eq_right (by positivity)

theorem exitShare_le_width (hwidth : 0 < a.width) (hx : b.centerX ≠ a.centerX) :
    exitShare a b ≤ a.width / 2 / |b.centerX - a.centerX| := by
  rw [← reach_eq hwidth, exitShare, if_neg hx]
  split
  · exact le_rfl
  · exact min_le_right _ _

theorem exitShare_le_height (hheight : 0 < a.height) (hy : b.centerY ≠ a.centerY) :
    exitShare a b ≤ a.height / 2 / |b.centerY - a.centerY| := by
  rw [← reach_eq hheight, exitShare, if_neg hy]
  split
  · exact le_rfl
  · exact min_le_left _ _

/-- What two boxes take of a distance that is at least half of their sides, is not more than all
of it. -/
theorem sub_shares_nonneg {share share' side side' distance : ℝ} (hpos : 0 < distance)
    (hfar : (side + side') / 2 ≤ distance) (hshare : share ≤ side / 2 / distance)
    (hshare' : share' ≤ side' / 2 / distance) : 0 ≤ 1 - share - share' := by
  have hall : side / 2 / distance + side' / 2 / distance ≤ 1 := by
    rw [← add_div, ← add_div, div_le_one hpos]
    exact hfar
  linarith

section Separate

variable (ha : 0 < a.width ∧ 0 < a.height) (hb : 0 < b.width ∧ 0 < b.height)
  (h : a.intersects b = false)
include ha hb h

/-- The points where the line of centers leaves two separate boxes do not pass each other. -/
theorem gapShare_nonneg : 0 ≤ gapShare a b := by
  have hfar : (a.width + b.width) / 2 ≤ |b.centerX - a.centerX| ∨
      (a.height + b.height) / 2 ≤ |b.centerY - a.centerY| := by
    rw [← Bool.not_eq_true, intersects_iff_center, not_and_or, not_lt, not_lt] at h
    rwa [abs_sub_comm b.centerX, abs_sub_comm b.centerY]
  rcases hfar with hfar | hfar
  · have hpos : 0 < |b.centerX - a.centerX| := by linarith
    have hne : b.centerX ≠ a.centerX := sub_ne_zero.mp (abs_pos.mp hpos)
    have hshare := exitShare_le_width hb.1 hne.symm
    rw [abs_sub_comm] at hshare
    exact sub_shares_nonneg hpos hfar (exitShare_le_width ha.1 hne) hshare
  · have hpos : 0 < |b.centerY - a.centerY| := by linarith
    have hne : b.centerY ≠ a.centerY := sub_ne_zero.mp (abs_pos.mp hpos)
    have hshare := exitShare_le_height hb.2 hne.symm
    rw [abs_sub_comm] at hshare
    exact sub_shares_nonneg hpos hfar (exitShare_le_height ha.2 hne) hshare

/-- The gap leads from one center towards the other. -/
theorem leads_gap : Leads (gap a b).x (b.centerX - a.centerX) ∧
    Leads (gap a b).y (b.centerY - a.centerY) := by
  have hshare := gapShare_nonneg ha hb h
  rw [gap_eq]
  exact ⟨(leads_settled _).trans ((Leads.refl _).const_mul hshare),
    (leads_settled _).trans ((Leads.refl _).const_mul hshare)⟩

end Separate

/-! ## Forces -/

/-- The gap between two boxes with components of the least size. -/
noncomputable def wideGap (least : ℝ) (a b : Box ℝ) : Point ℝ :=
  ⟨widened least (gap a b).x, widened least (gap a b).y⟩

theorem wideGap_comm (least : ℝ) (a b : Box ℝ) :
    wideGap least b a = ⟨-(wideGap least a b).x, -(wideGap least a b).y⟩ := by
  rw [wideGap, gap_comm, widened_neg, widened_neg]
  rfl

/-- The distance between two boxes that a spring feels: along both axes none or at least 1. -/
noncomputable def springLength (a b : Box ℝ) : ℝ := (wideGap 1 a b).norm

theorem origin_real : (Point.origin : Point ℝ) = ⟨0, 0⟩ := by
  have hzero : (0.0 : ℝ) = 0 := by norm_num
  rw [Point.origin, hzero]

theorem springForce_eq (h : a.intersects b = false) (ideal elasticity : ℝ) :
    springForce a b ideal elasticity =
      ⟨elasticity * (springLength a b - max ideal 1) * ((wideGap 1 a b).x / springLength a b),
        elasticity * (springLength a b - max ideal 1) *
          ((wideGap 1 a b).y / springLength a b)⟩ := by
  have hzero : (0.0 : ℝ) = 0 := by norm_num
  have hone : (1.0 : ℝ) = 1 := by norm_num
  have hwiden : ∀ x : ℝ, (if Scalar.abs x < 1 then Scalar.sign x else x) = widened 1 x := by
    intro x
    rw [widened, mul_one, Scalar.sign_real]
    rfl
  simp only [springForce, h, Bool.false_eq_true, if_false, hzero, hone, hwiden,
    Scalar.maxNum_real]
  change (if springLength a b == 0 then _ else _) = _
  split
  next hlength =>
    rw [of_decide_eq_true hlength, div_zero, div_zero, mul_zero, origin_real]
  next =>
    rw [max_comm]
    rfl

theorem repulsionForce_eq (h : a.intersects b = false) (strength least buffer : ℝ) :
    repulsionForce a b strength least buffer =
      ⟨-(strength / (wideGap least a b).dot (wideGap least a b)) * (wideGap least a b).x /
          (wideGap least a b).norm,
        -(strength / (wideGap least a b).dot (wideGap least a b)) * (wideGap least a b).y /
          (wideGap least a b).norm⟩ := by
  have hzero : (0.0 : ℝ) = 0 := by norm_num
  have hwiden : ∀ x : ℝ, (if Scalar.abs x < least then Scalar.sign x * least else x) =
      widened least x := by
    intro x
    rw [widened, Scalar.sign_real]
    rfl
  simp only [repulsionForce, h, Bool.false_eq_true, if_false, hzero, hwiden]
  change (if (wideGap least a b).dot (wideGap least a b) == 0 || (wideGap least a b).norm == 0
    then _ else _) = _
  split
  next hnone =>
    have hnorm : (wideGap least a b).norm = 0 := by
      rcases Bool.or_eq_true_iff.mp hnone with hdot | hnorm
      · exact (congrArg Real.sqrt (of_decide_eq_true hdot)).trans Real.sqrt_zero
      · exact of_decide_eq_true hnorm
    rw [hnorm, div_zero, div_zero, origin_real]
  next => rfl

section Separate

variable (ha : 0 < a.width ∧ 0 < a.height) (hb : 0 < b.width ∧ 0 < b.height)
  (h : a.intersects b = false)
include ha hb h

theorem leads_wideGap {least : ℝ} (hleast : 0 < least) :
    Leads (wideGap least a b).x (b.centerX - a.centerX) ∧
      Leads (wideGap least a b).y (b.centerY - a.centerY) := by
  obtain ⟨hx, hy⟩ := leads_gap ha hb h
  exact ⟨(leads_widened hleast _).trans hx, (leads_widened hleast _).trans hy⟩

end Separate

theorem dot_wideGap_comm (least : ℝ) (a b : Box ℝ) :
    (wideGap least b a).dot (wideGap least b a) = (wideGap least a b).dot (wideGap least a b) := by
  rw [wideGap_comm]
  exact congrArg₂ (· + ·) (neg_mul_neg _ _) (neg_mul_neg _ _)

theorem norm_wideGap_comm (least : ℝ) (a b : Box ℝ) :
    (wideGap least b a).norm = (wideGap least a b).norm :=
  congrArg Real.sqrt (dot_wideGap_comm least a b)

theorem springForce_comm (h : a.intersects b = false) (ideal elasticity : ℝ) :
    springForce b a ideal elasticity =
      ⟨-(springForce a b ideal elasticity).x, -(springForce a b ideal elasticity).y⟩ := by
  have hlength : springLength b a = springLength a b := norm_wideGap_comm 1 a b
  rw [springForce_eq h, springForce_eq (intersects_comm a b ▸ h), hlength, wideGap_comm,
    neg_div, neg_div, mul_neg, mul_neg]

theorem repulsionForce_comm (h : a.intersects b = false) (strength least buffer : ℝ) :
    repulsionForce b a strength least buffer =
      ⟨-(repulsionForce a b strength least buffer).x,
        -(repulsionForce a b strength least buffer).y⟩ := by
  rw [repulsionForce_eq h, repulsionForce_eq (intersects_comm a b ▸ h), dot_wideGap_comm least a b,
    norm_wideGap_comm least a b, wideGap_comm least a b, mul_neg, mul_neg, neg_div, neg_div]

/-- A wide gap is none or at least as long as its least component. -/
theorem dot_wideGap {least : ℝ} (hleast : 0 < least) (a b : Box ℝ) :
    (wideGap least a b).dot (wideGap least a b) = 0 ∨
      least * least ≤ (wideGap least a b).dot (wideGap least a b) := by
  have hle : ∀ {x : ℝ}, widened least x ≠ 0 →
      least * least ≤ widened least x * widened least x := fun hne =>
    (abs_mul_abs_self (widened least _)).symm ▸
      mul_self_le_mul_self hleast.le (le_abs_widened hleast hne)
  change widened least _ * widened least _ + widened least _ * widened least _ = 0 ∨
    least * least ≤ widened least _ * widened least _ + widened least _ * widened least _
  by_cases hx : widened least (gap a b).x = 0
  · by_cases hy : widened least (gap a b).y = 0
    · left
      rw [hx, hy, mul_zero, add_zero]
    · exact Or.inr ((hle hy).trans (le_add_of_nonneg_left (mul_self_nonneg _)))
  · exact Or.inr ((hle hx).trans (le_add_of_nonneg_right (mul_self_nonneg _)))

/-- A push of a length along a vector. -/
theorem norm_push {strength : ℝ} (hstrength : 0 ≤ strength) (g : Point ℝ) :
    Point.norm ⟨-(strength / g.dot g) * g.x / g.norm, -(strength / g.dot g) * g.y / g.norm⟩ =
      strength / g.dot g := by
  have hdot : g.dot g = g.x * g.x + g.y * g.y := rfl
  have hnonneg : 0 ≤ g.dot g := add_nonneg (mul_self_nonneg g.x) (mul_self_nonneg g.y)
  have hsquare : g.norm * g.norm = g.dot g := Real.mul_self_sqrt hnonneg
  rcases hnonneg.eq_or_lt with hzero | hpos
  · have hnorm : g.norm = 0 := (congrArg Real.sqrt hzero.symm).trans Real.sqrt_zero
    rw [hnorm, ← hzero]
    simp only [div_zero]
    change √((0 : ℝ) * 0 + 0 * 0) = 0
    rw [mul_zero, add_zero, Real.sqrt_zero]
  · generalize hf : strength / g.dot g = f
    have hf' : 0 ≤ f := hf ▸ div_nonneg hstrength hnonneg
    calc √(-f * g.x / g.norm * (-f * g.x / g.norm) + -f * g.y / g.norm * (-f * g.y / g.norm))
      _ = √(f * f * g.dot g / g.dot g) := by
        rw [div_mul_div_comm, div_mul_div_comm, hsquare, ← add_div, hdot]
        congr 2
        ring
      _ = f := by rw [mul_div_cancel_right₀ _ hpos.ne', Real.sqrt_mul_self hf']

theorem norm_repulsionForce_le (h : a.intersects b = false) {strength least : ℝ}
    (hstrength : 0 ≤ strength) (hleast : 0 < least) (buffer : ℝ) :
    (repulsionForce a b strength least buffer).norm ≤ strength / (least * least) := by
  rw [repulsionForce_eq h, norm_push hstrength]
  rcases dot_wideGap hleast a b with hzero | hle
  · rw [hzero, div_zero]
    positivity
  · exact div_le_div_of_nonneg_left hstrength (mul_pos hleast hleast) hle

/-- Vectors that are zero along the same axes. -/
structure SameAxes (f g : Point ℝ) : Prop where
  x_eq_zero_iff : f.x = 0 ↔ g.x = 0
  y_eq_zero_iff : f.y = 0 ↔ g.y = 0

theorem SameAxes.trans {f g h : Point ℝ} (hfg : SameAxes f g) (hgh : SameAxes g h) :
    SameAxes f h :=
  ⟨hfg.x_eq_zero_iff.trans hgh.x_eq_zero_iff, hfg.y_eq_zero_iff.trans hgh.y_eq_zero_iff⟩

theorem sameAxes_wideGap {least : ℝ} (hleast : 0 < least) (a b : Box ℝ) :
    SameAxes (wideGap least a b) (gap a b) :=
  ⟨widened_eq_zero_iff hleast, widened_eq_zero_iff hleast⟩

/-- A push along a vector acts along all its axes, but for a push of no length. -/
theorem sameAxes_push {c : ℝ} {g : Point ℝ} (hc : c = 0 → g.dot g = 0) :
    SameAxes ⟨c * (g.x / g.norm), c * (g.y / g.norm)⟩ g := by
  have hdot : g.dot g = 0 ↔ g.x = 0 ∧ g.y = 0 := by
    rw [Point.dot, add_eq_zero_iff_of_nonneg (mul_self_nonneg _) (mul_self_nonneg _),
      mul_self_eq_zero, mul_self_eq_zero]
  have hnorm : g.norm = 0 → g.x = 0 ∧ g.y = 0 := fun hzero => hdot.mp
    ((Real.sqrt_eq_zero (add_nonneg (mul_self_nonneg _) (mul_self_nonneg _))).mp hzero)
  have hpush := fun hzero => hdot.mp (hc hzero)
  have haxis : ∀ {x : ℝ}, (c = 0 → x = 0) → (g.norm = 0 → x = 0) →
      (c * (x / g.norm) = 0 ↔ x = 0) := by
    intro x hpush hnorm
    rw [mul_eq_zero, div_eq_zero_iff]
    constructor
    · rintro (h | h | h)
      · exact hpush h
      · exact h
      · exact hnorm h
    · exact fun h => Or.inr (Or.inl h)
  exact ⟨haxis (hpush · |>.1) (hnorm · |>.1), haxis (hpush · |>.2) (hnorm · |>.2)⟩

theorem sameAxes_springForce (h : a.intersects b = false) {ideal elasticity : ℝ}
    (helasticity : elasticity ≠ 0) (hlength : springLength a b ≠ max ideal 1) :
    SameAxes (springForce a b ideal elasticity) (gap a b) := by
  rw [springForce_eq h]
  refine (sameAxes_push fun hzero => ?_).trans (sameAxes_wideGap zero_lt_one a b)
  exact absurd hzero (mul_ne_zero helasticity (sub_ne_zero.mpr hlength))

theorem springForce_eq_zero (h : a.intersects b = false) {ideal : ℝ} (elasticity : ℝ)
    (hlength : springLength a b = max ideal 1) : springForce a b ideal elasticity = ⟨0, 0⟩ := by
  rw [springForce_eq h, hlength, sub_self, mul_zero, zero_mul, zero_mul]

theorem sameAxes_repulsionForce (h : a.intersects b = false) {strength least : ℝ}
    (hstrength : strength ≠ 0) (hleast : 0 < least) (buffer : ℝ) :
    SameAxes (repulsionForce a b strength least buffer) (gap a b) := by
  rw [repulsionForce_eq h]
  simp only [mul_div_assoc]
  refine (sameAxes_push fun hzero => ?_).trans (sameAxes_wideGap hleast a b)
  exact (div_eq_zero_iff.mp (neg_eq_zero.mp hzero)).resolve_left hstrength

/-- A force at a point `p` leads along each axis towards a point `q` or nowhere. -/
structure LeadsTowards (f p q : Point ℝ) : Prop where
  x : Leads f.x (q.x - p.x)
  y : Leads f.y (q.y - p.y)

/-- What boxes do to each other by their spring and by repulsion. -/
structure Interact (a b : Box ℝ) (ideal elasticity strength least buffer : ℝ) : Prop where
  springForce_comm : springForce b a ideal elasticity =
    ⟨-(springForce a b ideal elasticity).x, -(springForce a b ideal elasticity).y⟩
  repulsionForce_comm : repulsionForce b a strength least buffer =
    ⟨-(repulsionForce a b strength least buffer).x,
      -(repulsionForce a b strength least buffer).y⟩
  /-- The repulsion on a box leads away from the other one. -/
  repels : LeadsTowards (repulsionForce a b strength least buffer) b.center a.center
  norm_repulsionForce_le :
    (repulsionForce a b strength least buffer).norm ≤ strength / (least * least)
  /-- A spring pulls when it is stretched. -/
  pulls : max ideal 1 < springLength a b →
    LeadsTowards (springForce a b ideal elasticity) a.center b.center
  /-- A spring pushes when it is compressed. -/
  pushes : springLength a b < max ideal 1 →
    LeadsTowards (springForce a b ideal elasticity) b.center a.center
  /-- Boxes with a gap along an axis repel each other along it. -/
  repulsionForce_axes : SameAxes (repulsionForce a b strength least buffer) (gap a b)
  /-- A spring acts along the same axes, unless it is at rest. -/
  springForce_axes : springLength a b ≠ max ideal 1 →
    SameAxes (springForce a b ideal elasticity) (gap a b)
  springForce_eq_zero : springLength a b = max ideal 1 →
    springForce a b ideal elasticity = ⟨0, 0⟩

theorem interact (ha : 0 < a.width ∧ 0 < a.height) (hb : 0 < b.width ∧ 0 < b.height)
    (h : a.intersects b = false) {elasticity strength least : ℝ} (helasticity : 0 < elasticity)
    (hstrength : 0 < strength) (hleast : 0 < least) (ideal buffer : ℝ) :
    Interact a b ideal elasticity strength least buffer := by
  have hspring := leads_wideGap ha hb h zero_lt_one
  have hlength : 0 ≤ springLength a b := Real.sqrt_nonneg _
  constructor
  case springForce_comm => exact springForce_comm h ideal elasticity
  case repulsionForce_comm => exact repulsionForce_comm h strength least buffer
  case norm_repulsionForce_le => exact norm_repulsionForce_le h hstrength.le hleast buffer
  case repels =>
    obtain ⟨hx, hy⟩ := leads_wideGap ha hb h hleast
    have hforce : 0 ≤ strength / (wideGap least a b).dot (wideGap least a b) :=
      div_nonneg hstrength.le (add_nonneg (mul_self_nonneg _) (mul_self_nonneg _))
    rw [repulsionForce_eq h]
    simp only [neg_mul, neg_div, mul_div_assoc]
    exact ⟨(hx.mul_div hforce (Real.sqrt_nonneg _)).opposite,
      (hy.mul_div hforce (Real.sqrt_nonneg _)).opposite⟩
  case pulls =>
    intro hstretched
    have hforce : 0 ≤ elasticity * (springLength a b - max ideal 1) :=
      mul_nonneg helasticity.le (sub_nonneg.mpr hstretched.le)
    rw [springForce_eq h]
    exact ⟨hspring.1.mul_div hforce hlength, hspring.2.mul_div hforce hlength⟩
  case pushes =>
    intro hcompressed
    have hforce : 0 ≤ elasticity * (max ideal 1 - springLength a b) :=
      mul_nonneg helasticity.le (sub_nonneg.mpr hcompressed.le)
    rw [springForce_eq h, ← neg_sub (max ideal 1), mul_neg, neg_mul, neg_mul]
    exact ⟨(hspring.1.mul_div hforce hlength).opposite,
      (hspring.2.mul_div hforce hlength).opposite⟩
  case repulsionForce_axes => exact sameAxes_repulsionForce h hstrength.ne' hleast buffer
  case springForce_axes => exact fun hlength => sameAxes_springForce h helasticity.ne' hlength
  case springForce_eq_zero => exact Box.springForce_eq_zero h elasticity

/-- Two boxes with some room between them. -/
theorem interact_apart : (0 : ℝ) < 10 ∧
    intersects ⟨0, 0, 10, 10⟩ (⟨30, 5, 10, 10⟩ : Box ℝ) = false ∧
    (0 : ℝ) < 0.5 ∧ (0 : ℝ) < 100 ∧ (0 : ℝ) < 0.0005 ∧
    Interact ⟨0, 0, 10, 10⟩ ⟨30, 5, 10, 10⟩ 15 0.5 100 0.0005 0 := by
  have hside : (0 : ℝ) < 10 := by norm_num
  have hapart : intersects ⟨0, 0, 10, 10⟩ (⟨30, 5, 10, 10⟩ : Box ℝ) = false := by
    apply intersects_eq_false_of_right_le
    norm_num [right]
  have helasticity : (0 : ℝ) < 0.5 := by norm_num
  have hstrength : (0 : ℝ) < 100 := by norm_num
  have hleast : (0 : ℝ) < 0.0005 := by norm_num
  exact ⟨hside, hapart, helasticity, hstrength, hleast,
    interact ⟨hside, hside⟩ ⟨hside, hside⟩ hapart helasticity hstrength hleast 15 0⟩

end Box

end RingLayout
