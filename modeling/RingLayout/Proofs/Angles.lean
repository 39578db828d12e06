import Mathlib.Algebra.Order.ToIntervalMod
import RingLayout.Proofs.Scalar.Real

/-! # Angles in turn

In exact arithmetic normalization takes an angle to its remainder modulo a full turn. Angles are in
turn if they are the remainders of numbers that grow by less than a turn in all: then whoever
starts at the first and turns on by less than a turn meets them one after the other.
-/

namespace RingLayout

/-- The angle of `[0, 2π)` by which one has to turn from one direction to reach another. -/
noncomputable def arc (a b : ℝ) : ℝ := toIcoMod fullTurn_pos 0 (b - a)

/-! ## Normalization -/

theorem normalizeAngle_eq (x : ℝ) : normalizeAngle x = toIcoMod fullTurn_pos 0 x := by
  have hmod : Scalar.emod x (Scalar.turn : ℝ) = toIcoMod fullTurn_pos 0 x := by
    change x - fullTurn * ⌊x / fullTurn⌋ = _
    rw [toIcoMod, toIcoDiv_eq_floor, sub_zero, zsmul_eq_mul, mul_comm]
  have hlt : ¬(Scalar.turn : ℝ) ≤ toIcoMod fullTurn_pos 0 x :=
    not_le.mpr (toIcoMod_mem_Ico' fullTurn_pos x).2
  change (if (Scalar.turn : ℝ) ≤ Scalar.emod x Scalar.turn then 0.0
    else Scalar.emod x Scalar.turn) = _
  rw [hmod, if_neg hlt]

theorem normalizeAngle_mem_Ico (x : ℝ) : normalizeAngle x ∈ Set.Ico 0 fullTurn :=
  normalizeAngle_eq x ▸ toIcoMod_mem_Ico' fullTurn_pos x

theorem normalizeAngle_eq_self {x : ℝ} (h : x ∈ Set.Ico 0 fullTurn) :
    normalizeAngle x = x := by
  rw [normalizeAngle_eq, toIcoMod_eq_self, zero_add]
  exact h

theorem normalizeAngle_inj {x y : ℝ} :
    normalizeAngle x = normalizeAngle y ↔ x ≡ y [PMOD fullTurn] := by
  rw [normalizeAngle_eq, normalizeAngle_eq, toIcoMod_inj]

theorem normalizeAngle_modEq (x : ℝ) : normalizeAngle x ≡ x [PMOD fullTurn] :=
  normalizeAngle_inj.mp (normalizeAngle_eq_self (normalizeAngle_mem_Ico x))

theorem normalizeAngle_add_fullTurn (x : ℝ) :
    normalizeAngle (x + fullTurn) = normalizeAngle x := by
  rw [normalizeAngle_eq, normalizeAngle_eq, toIcoMod_add_right]

/-- Turning an angle and turning the direction it stands for come to the same. -/
theorem normalizeAngle_rotate (x angle : ℝ) :
    normalizeAngle (normalizeAngle x + angle) = normalizeAngle (x + angle) :=
  normalizeAngle_inj.mpr ((normalizeAngle_modEq x).add_right angle)

/-- So do mirroring an angle and mirroring its direction. -/
theorem normalizeAngle_mirror (x y : ℝ) :
    normalizeAngle (2 * normalizeAngle x - normalizeAngle y) = normalizeAngle (2 * x - y) := by
  have hx := normalizeAngle_modEq x
  have htwice : 2 * normalizeAngle x ≡ 2 * x [PMOD fullTurn] := by
    rw [two_mul (normalizeAngle x), two_mul x]
    exact hx.add hx
  exact normalizeAngle_inj.mpr (htwice.sub (normalizeAngle_modEq y))

/-- What matters for an arc are the directions of its ends. -/
theorem arc_normalizeAngle (x y : ℝ) : arc (normalizeAngle x) (normalizeAngle y) = arc x y :=
  toIcoMod_inj fullTurn_pos |>.mpr ((normalizeAngle_modEq y).sub (normalizeAngle_modEq x))

theorem arc_eq_sub {x y : ℝ} (h : y ∈ Set.Ico x (x + fullTurn)) : arc x y = y - x := by
  rw [arc, toIcoMod_eq_self, zero_add]
  exact ⟨sub_nonneg.mpr h.1, sub_lt_iff_lt_add'.mpr h.2⟩

theorem arc_add_fullTurn (x y : ℝ) : arc x (y + fullTurn) = arc x y := by
  rw [arc, add_sub_right_comm, toIcoMod_add_right]
  rfl

/-! ## Turning and mirroring -/

/-- The remainders of numbers that grow by less than a turn in all. -/
def InTurn (angles : List ℝ) : Prop :=
  ∃ (start : ℝ) (lifts : List ℝ), lifts.Pairwise (· < ·) ∧
    (∀ x ∈ lifts, x ∈ Set.Ico start (start + fullTurn)) ∧ angles = lifts.map normalizeAngle

namespace InTurn

theorem single (x : ℝ) : InTurn [normalizeAngle x] :=
  ⟨x, [x], List.pairwise_singleton _ x, by simp [fullTurn_pos], rfl⟩

variable {angles : List ℝ}

theorem sublist {part : List ℝ} (h : InTurn angles) (hpart : part.Sublist angles) :
    InTurn part := by
  obtain ⟨start, lifts, hlt, hmem, rfl⟩ := h
  obtain ⟨lifts', hlifts, rfl⟩ := List.sublist_map_iff.mp hpart
  exact ⟨start, lifts', hlt.sublist hlifts, fun x hx => hmem x (hlifts.subset hx), rfl⟩

theorem rotate (h : InTurn angles) (angle : ℝ) :
    InTurn (angles.map fun a => normalizeAngle (a + angle)) := by
  obtain ⟨start, lifts, hlt, hmem, rfl⟩ := h
  refine ⟨start + angle, lifts.map (· + angle), hlt.map _ fun x y hxy => ?_, fun y hy => ?_, ?_⟩
  · exact add_lt_add_left hxy angle
  · obtain ⟨x, hx, rfl⟩ := List.mem_map.mp hy
    exact ⟨by linarith [(hmem x hx).1], by linarith [(hmem x hx).2]⟩
  · rw [List.map_map, List.map_map]
    exact List.map_congr_left fun x _ => normalizeAngle_rotate x angle

/-- Mirrored at the first of them, the others come in the opposite order. -/
theorem mirror {a : ℝ} {rest : List ℝ} (h : InTurn (a :: rest)) :
    InTurn ((a :: rest.reverse).map fun b => normalizeAngle (2 * a - b)) := by
  obtain ⟨start, lifts, hlt, hmem, hlifts⟩ := h
  cases lifts with
  | nil => cases hlifts
  | cons x xs =>
      obtain ⟨rfl, rfl⟩ := List.cons.inj hlifts
      obtain ⟨hx, hxs⟩ := List.pairwise_cons.mp hlt
      have hstart := (hmem x List.mem_cons_self).1
      -- beyond the first, a full turn keeps the mirrored numbers above it
      have hmirror : ∀ z ∈ xs.reverse.map (2 * x + fullTurn - ·),
          x < z ∧ z < x + fullTurn := by
        intro z hz
        obtain ⟨y, hy, rfl⟩ := List.mem_map.mp hz
        rw [List.mem_reverse] at hy
        have hend := (hmem y (List.mem_cons_of_mem x hy)).2
        exact ⟨by linarith, by linarith [hx y hy]⟩
      refine ⟨x, x :: xs.reverse.map (2 * x + fullTurn - ·), ?_, ?_, ?_⟩
      · refine List.pairwise_cons.mpr ⟨fun z hz => (hmirror z hz).1, ?_⟩
        exact (List.pairwise_reverse.mpr hxs).map _ fun y z hyz => sub_lt_sub_left hyz _
      · refine List.forall_mem_cons.mpr ⟨⟨le_rfl, by linarith [fullTurn_pos]⟩, fun z hz => ?_⟩
        exact ⟨(hmirror z hz).1.le, (hmirror z hz).2⟩
      · rw [← List.map_reverse, List.map_cons, List.map_cons, List.map_map, List.map_map]
        refine congrArg₂ List.cons ?_ (List.map_congr_left fun y _ => ?_)
        · rw [normalizeAngle_mirror, two_mul, add_sub_cancel_right]
        · change normalizeAngle (2 * normalizeAngle x - normalizeAngle y) =
            normalizeAngle (2 * x + fullTurn - y)
          rw [normalizeAngle_mirror, add_sub_right_comm, normalizeAngle_add_fullTurn]

/-! ## What can be seen of it -/

theorem mem_Ico (h : InTurn angles) : ∀ a ∈ angles, a ∈ Set.Ico 0 fullTurn := by
  obtain ⟨start, lifts, -, -, rfl⟩ := h
  intro a ha
  obtain ⟨x, -, rfl⟩ := List.mem_map.mp ha
  exact normalizeAngle_mem_Ico x

/-- The arcs from the first of them grow. -/
theorem pairwise_arc {a : ℝ} {rest : List ℝ} (h : InTurn (a :: rest)) :
    ((a :: rest).map (arc a)).Pairwise (· < ·) := by
  obtain ⟨start, lifts, hlt, hmem, hlifts⟩ := h
  cases lifts with
  | nil => cases hlifts
  | cons x xs =>
      obtain ⟨rfl, rfl⟩ := List.cons.inj hlifts
      have hle : ∀ y ∈ x :: xs, x ≤ y := List.forall_mem_cons.mpr
        ⟨le_rfl, fun y hy => ((List.pairwise_cons.mp hlt).1 y hy).le⟩
      have harcs : ((x :: xs).map normalizeAngle).map (arc (normalizeAngle x)) =
          (x :: xs).map (· - x) := by
        rw [List.map_map]
        refine List.map_congr_left fun y hy => (arc_normalizeAngle x y).trans (arc_eq_sub ?_)
        refine ⟨hle y hy, (hmem y hy).2.trans_le ?_⟩
        linarith [(hmem x List.mem_cons_self).1]
      rw [← List.map_cons, harcs]
      exact hlt.map _ fun y z hyz => sub_lt_sub_right hyz x

theorem nodup (h : InTurn angles) : angles.Nodup := by
  cases angles with
  | nil => exact List.nodup_nil
  | cons a rest => exact .of_map (arc a) (h.pairwise_arc.imp fun hlt => ne_of_lt hlt)

end InTurn

end RingLayout
