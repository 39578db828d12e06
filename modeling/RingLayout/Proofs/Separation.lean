import RingLayout.Proofs.Scalar.Extended
import RingLayout.Proofs.Tiling

/-! # Separated boxes

Boxes that intersect are separated along the line of their centers. The overlap along an axis is
what the far sides are apart, so half of it each way, away from the other center, parts the boxes
along that axis. One axis is enough, and one overlap is made up for. With infinities this is what
dividing by the distance of the centers gives, be they side by side or one above the other.
-/

namespace RingLayout.Box

/-! ## Along an axis -/

section Axis

variable {lo hi lo' hi' buffer : ℝ}

/-- An overlap is the shorter of the two ways out. -/
theorem overlap_eq_min (lo hi lo' hi' : ℝ) :
    overlap lo hi lo' hi' = min (hi - lo') (hi' - lo) := by
  simp only [overlap, Scalar.minNum_real, Scalar.maxNum_real]
  split
  next hholds =>
    rw [min_eq_left hholds.2, max_eq_left hholds.1, ← min_add_add_left]
    congr 1 <;> ring
  next hnot =>
    split
    next hheld =>
      rw [min_eq_right hheld.2, max_eq_right hheld.1, ← min_add_add_left, min_comm]
      congr 1 <;> ring
    next hnot' =>
      -- neither extent holds the other, so one begins and ends before the other
      rcases le_total lo lo' with hle | hle
      · have hlt : hi < hi' := not_le.mp fun h => hnot ⟨hle, h⟩
        rw [min_eq_right hlt.le, max_eq_left hle, min_eq_left (by linarith)]
      · have hlt : hi' < hi := not_le.mp fun h => hnot' ⟨hle, h⟩
        rw [min_eq_left hlt.le, max_eq_right hle, min_eq_right (by linarith)]

/-- The way of the first extent out of the second, where half the overlap is left to each. -/
noncomputable def wayOut (lo hi lo' hi' buffer : ℝ) : ℝ :=
  (if lo + hi < lo' + hi' then -1 else 1) * (overlap lo hi lo' hi' / 2.0 + buffer)

/-- Who goes out with the other going the opposite way, is out. -/
theorem apart_wayOut (hbuffer : 0 ≤ buffer) :
    hi + wayOut lo hi lo' hi' buffer ≤ lo' - wayOut lo hi lo' hi' buffer ∨
      hi' - wayOut lo hi lo' hi' buffer ≤ lo + wayOut lo hi lo' hi' buffer := by
  have htwo : (2.0 : ℝ) = 2 := by norm_num
  rw [wayOut, overlap_eq_min, htwo]
  split
  next hlt =>
    rw [min_eq_left (by linarith)]
    left
    linarith
  next hge =>
    rw [min_eq_right (by linarith)]
    right
    linarith

end Axis

/-! ## Parting -/

variable {K : Type} [Scalar K]

/-- Along one of the axes the overlap is made up for. -/
theorem partingShift_cases (a b : Box K) (overlapX overlapY : K) :
    (partingShift a b overlapX overlapY).x = overlapX ∨
      (partingShift a b overlapX overlapY).y = overlapY := by
  unfold partingShift
  dsimp only
  split_ifs
  all_goals first | exact Or.inl rfl | exact Or.inr rfl

section Real

variable {a b : Box ℝ} {buffer : ℝ}

theorem right_translate (b : Box ℝ) (p : Point ℝ) : (b.translate p).right = b.right + p.x :=
  add_right_comm ..

theorem bottom_translate (b : Box ℝ) (p : Point ℝ) : (b.translate p).bottom = b.bottom + p.y :=
  add_right_comm ..

/-- A displacement that leads out along one axis, with its negative for the other box, parts two
boxes. -/
theorem intersects_translate_eq_false {p : Point ℝ} (hbuffer : 0 ≤ buffer)
    (h : p.x = wayOut a.left a.right b.left b.right buffer ∨
      p.y = wayOut a.top a.bottom b.top b.bottom buffer) :
    (a.translate p).intersects (b.translate ⟨-p.x, -p.y⟩) = false := by
  rcases h with hx | hy
  · rcases hx ▸ apart_wayOut hbuffer with hapart | hapart
    · apply intersects_eq_false_of_right_le
      rwa [right_translate]
    · rw [intersects_comm]
      apply intersects_eq_false_of_right_le
      rwa [right_translate]
  · rcases hy ▸ apart_wayOut hbuffer with hapart | hapart
    · apply intersects_eq_false_of_bottom_le
      rwa [bottom_translate]
    · rw [intersects_comm]
      apply intersects_eq_false_of_bottom_le
      rwa [bottom_translate]

theorem centerX_lt_iff : a.centerX < b.centerX ↔ a.left + a.right < b.left + b.right := by
  have htwo : (2.0 : ℝ) = 2 := by norm_num
  simp only [centerX, right, htwo]
  constructor <;> intro h <;> linarith

theorem centerY_lt_iff : a.centerY < b.centerY ↔ a.top + a.bottom < b.top + b.bottom := by
  have htwo : (2.0 : ℝ) = 2 := by norm_num
  simp only [centerY, bottom, htwo]
  constructor <;> intro h <;> linarith

/-- A separation leads out along one axis. -/
theorem separation_cases (a b : Box ℝ) (buffer : ℝ) :
    (separation a b buffer).x = wayOut a.left a.right b.left b.right buffer ∨
      (separation a b buffer).y = wayOut a.top a.bottom b.top b.bottom buffer := by
  have hone : (1.0 : ℝ) = 1 := by norm_num
  apply (partingShift_cases a b (overlap a.left a.right b.left b.right)
    (overlap a.top a.bottom b.top b.bottom)).imp
  · intro hx
    simp only [separation, wayOut, hx, centerX_lt_iff, hone]
  · intro hy
    simp only [separation, wayOut, hy, centerY_lt_iff, hone]

/-- The overlaps of boxes that intersect are proper. -/
theorem overlap_pos (h : a.intersects b = true) :
    0 < overlap a.left a.right b.left b.right ∧ 0 < overlap a.top a.bottom b.top b.bottom := by
  simp only [intersects, Bool.and_eq_true, decide_eq_true_iff] at h
  obtain ⟨⟨⟨hleft, hright⟩, htop⟩, hbottom⟩ := h
  rw [overlap_eq_min, overlap_eq_min]
  exact ⟨lt_min (sub_pos.mpr hright) (sub_pos.mpr hleft),
    lt_min (sub_pos.mpr hbottom) (sub_pos.mpr htop)⟩

end Real

/-! ## With infinities -/

section Extended

open Extended (finite infinite)

/-- The shift that boxes take where their slope is what division gives. -/
def slopedShift (a b : Box K) (overlapX overlapY : K) : Point K :=
  let slope : K :=
    if b.centerY == a.centerY && b.centerX == a.centerX then 1.0
    else Scalar.abs ((b.centerY - a.centerY) / (b.centerX - a.centerX))
  let byX := overlapY / slope
  if overlapX < byX then ⟨overlapX, slope * overlapX⟩ else ⟨byX, overlapY⟩

variable {a b : Box ℝ} {overlapX overlapY buffer : ℝ}

theorem overlap_finite (lo hi lo' hi' : ℝ) :
    overlap (finite lo) (finite hi) (finite lo') (finite hi') = finite (overlap lo hi lo' hi') := by
  simp only [overlap, Extended.finite_le, Extended.minNum_finite, Extended.maxNum_finite,
    Extended.finite_sub, Extended.finite_add]
  split_ifs <;> rfl

theorem zero_extended : (0.0 : Extended) = finite 0 := congrArg finite (by norm_num)

theorem proper_finite {x : ℝ} (hx : 0 < x) :
    (Scalar.isFinite (finite x) && decide ((0.0 : Extended) < finite x)) = true := by
  rw [zero_extended, Extended.isFinite_finite, Bool.true_and, decide_eq_true_iff]
  exact hx

theorem proper_real {x : ℝ} (hx : 0 < x) :
    (Scalar.isFinite x && decide (0.0 < x)) = true := by
  have hzero : (0.0 : ℝ) = 0 := by norm_num
  rw [hzero]
  exact decide_eq_true hx

/-- Where the centers are side by side or one above the other, the slope is zero or infinite, and
the shift by it is that along the one axis. -/
theorem partingShift_eq_slopedShift (hx : 0 < overlapX) (hy : 0 < overlapY) :
    partingShift a.extended b.extended (finite overlapX) (finite overlapY) =
      slopedShift a.extended b.extended (finite overlapX) (finite overlapY) := by
  simp only [partingShift, slopedShift, proper_finite hx, proper_finite hy, Bool.and_true,
    centerX_extended, centerY_extended, Extended.finite_beq, Extended.finite_sub]
  cases hsameX : b.centerX == a.centerX <;> cases hsameY : b.centerY == a.centerY
  case false.false => rfl
  case true.true => rfl
  case false.true =>
    have hdy : b.centerY - a.centerY = 0 := sub_eq_zero.mpr (of_decide_eq_true hsameY)
    have hdx : b.centerX - a.centerX ≠ 0 := sub_ne_zero.mpr (of_decide_eq_false hsameX)
    have hslope : Scalar.abs (finite (b.centerY - a.centerY) / finite (b.centerX - a.centerX)) =
        finite 0 := by
      rw [Extended.finite_div _ hdx, hdy, zero_div, Extended.abs_finite, abs_zero]
    have hbyX : finite overlapY / finite 0 = infinite false := by
      rw [Extended.finite_div_zero hy.ne', decide_eq_false hy.not_gt]
    have hless : finite overlapX < infinite false := rfl
    simp [hslope, hbyX, hless, zero_extended]
  case true.false =>
    have hdx : b.centerX - a.centerX = 0 := sub_eq_zero.mpr (of_decide_eq_true hsameX)
    have hdy : b.centerY - a.centerY ≠ 0 := sub_ne_zero.mpr (of_decide_eq_false hsameY)
    have hslope : Scalar.abs (finite (b.centerY - a.centerY) / finite (b.centerX - a.centerX)) =
        infinite false := by
      rw [hdx, Extended.finite_div_zero hdy]
      rfl
    have hbyX : finite overlapY / infinite false = finite 0 := rfl
    simp [hslope, hbyX, zero_extended, hx.not_gt]

/-- A slope that is not zero gives a finite shift. -/
theorem slope_extended {slope : ℝ} (hslope : slope ≠ 0) (overlapX overlapY : ℝ) :
    (if finite overlapX < finite overlapY / finite slope then
        (⟨finite overlapX, finite slope * finite overlapX⟩ : Point Extended)
      else ⟨finite overlapY / finite slope, finite overlapY⟩) =
      Point.extended (if overlapX < overlapY / slope then ⟨overlapX, slope * overlapX⟩
        else ⟨overlapY / slope, overlapY⟩) := by
  rw [Extended.finite_div _ hslope]
  simp only [Extended.finite_lt]
  split_ifs <;> rfl

/-- Boxes with finite coordinates take finite shifts. -/
theorem partingShift_extended (hx : 0 < overlapX) (hy : 0 < overlapY) :
    partingShift a.extended b.extended (finite overlapX) (finite overlapY) =
      (partingShift a b overlapX overlapY).extended := by
  simp only [partingShift, proper_finite hx, proper_finite hy, proper_real hx, proper_real hy,
    Bool.and_true, centerX_extended, centerY_extended, Extended.finite_beq, Extended.finite_sub]
  cases hsameX : b.centerX == a.centerX <;> cases hsameY : b.centerY == a.centerY
  case false.true => rfl
  case true.false => rfl
  case true.true => exact slope_extended (by norm_num) overlapX overlapY
  case false.false =>
    have hdx : b.centerX - a.centerX ≠ 0 := sub_ne_zero.mpr (of_decide_eq_false hsameX)
    have hdy : b.centerY - a.centerY ≠ 0 := sub_ne_zero.mpr (of_decide_eq_false hsameY)
    have hslope := slope_extended (abs_ne_zero.mpr (div_ne_zero hdy hdx)) overlapX overlapY
    rw [← Extended.abs_finite, ← Extended.finite_div _ hdx] at hslope
    exact hslope

theorem separation_extended (h : a.intersects b = true) (buffer : ℝ) :
    separation a.extended b.extended (finite buffer) = (separation a b buffer).extended := by
  obtain ⟨hx, hy⟩ := overlap_pos h
  have hdirection : ∀ (x y move : ℝ),
      (if finite x < finite y then -1.0 else (1.0 : Extended)) *
        (finite move / 2.0 + finite buffer) =
      finite ((if x < y then -1.0 else 1.0) * (move / 2.0 + buffer)) := by
    intro x y move
    rw [half_finite, Extended.finite_add]
    simp only [Extended.finite_lt]
    split_ifs <;> rfl
  simp only [separation, left_extended, right_extended, top_extended, bottom_extended,
    overlap_finite, partingShift_extended hx hy, centerX_extended, centerY_extended]
  exact congrArg₂ Point.mk (hdirection _ _ _) (hdirection _ _ _)

/-- A displacement, with its negative for the other box, parts two boxes. -/
structure Parts (a b : Box Extended) (p : Point Extended) : Prop where
  finite_x : Scalar.isFinite p.x = true
  finite_y : Scalar.isFinite p.y = true
  apart : (a.translate p).intersects (b.translate ⟨-p.x, -p.y⟩) = false
  /-- The boxes leave each other as the slope of their centers says, zero and infinity included. -/
  sloped : partingShift a b (overlap a.left a.right b.left b.right)
      (overlap a.top a.bottom b.top b.bottom) =
    slopedShift a b (overlap a.left a.right b.left b.right)
      (overlap a.top a.bottom b.top b.bottom)

/-- Boxes that intersect are pushed apart, whatever the strength. -/
theorem parts_repulsionForce (h : a.extended.intersects b.extended = true)
    (strength minGap : Extended) (hbuffer : 0 ≤ buffer) :
    Parts a.extended b.extended
      (a.extended.repulsionForce b.extended strength minGap (finite buffer)) := by
  rw [repulsionForce, if_pos h]
  rw [intersects_extended] at h
  rw [separation_extended h]
  constructor
  case finite_x => rfl
  case finite_y => rfl
  case apart =>
    have hapart := intersects_translate_eq_false hbuffer (separation_cases a b buffer)
    rwa [← intersects_extended] at hapart
  case sloped =>
    obtain ⟨hx, hy⟩ := overlap_pos h
    simp only [left_extended, right_extended, top_extended, bottom_extended, overlap_finite]
    exact partingShift_eq_slopedShift hx hy

/-- Two boxes side by side. -/
theorem parts_repulsionForce_side : (extended ⟨0, 0, 10, 10⟩).intersects (extended ⟨5, 0, 10, 10⟩) ∧
    (0 : ℝ) ≤ 1 ∧ Parts (extended ⟨0, 0, 10, 10⟩) (extended ⟨5, 0, 10, 10⟩)
      (repulsionForce (extended ⟨0, 0, 10, 10⟩) (extended ⟨5, 0, 10, 10⟩) (finite 100) (finite 1)
        (finite 1)) := by
  have h : (extended ⟨0, 0, 10, 10⟩).intersects (extended ⟨5, 0, 10, 10⟩) = true := by
    rw [intersects_extended]
    norm_num [intersects, right, bottom]
  exact ⟨h, zero_le_one, parts_repulsionForce h _ _ zero_le_one⟩

end Extended

end RingLayout.Box
