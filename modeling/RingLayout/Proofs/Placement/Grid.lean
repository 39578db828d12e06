import Mathlib
import RingLayout.Placement
import RingLayout.Proofs.Arrangement
import RingLayout.Proofs.Scalar.Real

/-! # The neighbourhood grid finds all neighbours

Two boxes within range of each other have a common cell once the cells of one of them are widened
by a ring, wherever the boxes lie on the cells and at the edge of the grid. So the grid finds the
pairs that a comparison of all pairs finds, and the rings are repelled by the same others on both
sides of the number up to which all pairs are compared.
-/

open scoped List

namespace RingLayout

namespace Grid

/-! ## Cells -/

theorem intoGrid_nonneg (cell size : Int) : 0 ≤ intoGrid cell size := Int.le_max_left _ _

theorem intoGrid_lt {cell size : Int} (hsize : 1 ≤ size) : intoGrid cell size < size := by
  rw [intoGrid]
  omega

theorem intoGrid_mono {cell cell' size : Int} (h : cell ≤ cell') :
    intoGrid cell size ≤ intoGrid cell' size := by
  rw [intoGrid, intoGrid]
  omega

theorem intoGrid_add_one_le (cell size : Int) :
    intoGrid (cell + 1) size ≤ intoGrid cell size + 1 := by
  rw [intoGrid, intoGrid]
  omega

theorem mem_between {first last k : Int} : k ∈ between first last ↔ first ≤ k ∧ k ≤ last := by
  rw [between, List.mem_map]
  constructor
  · rintro ⟨n, hn, rfl⟩
    rw [List.mem_range] at hn
    omega
  · rintro ⟨hfirst, hlast⟩
    refine ⟨(k - first).toNat, List.mem_range.mpr ?_, ?_⟩ <;> omega

section Lists

variable {K : Type}

theorem mem_cellsOf {g : Grid K} {s : CellSpan} {cell : Nat} :
    cell ∈ g.cellsOf s ↔ ∃ x y, (s.firstX ≤ x ∧ x ≤ s.lastX) ∧ (s.firstY ≤ y ∧ y ≤ s.lastY) ∧
      g.index x y = cell := by
  simp only [cellsOf, List.mem_flatMap, List.mem_map, mem_between]
  constructor
  · rintro ⟨x, hx, y, hy, hcell⟩
    exact ⟨x, y, hx, hy, hcell⟩
  · rintro ⟨x, y, hx, hy, hcell⟩
    exact ⟨x, hx, y, hy, hcell⟩

theorem index_lt {g : Grid K} {x y : Int} (hx : 0 ≤ x ∧ x < g.width) (hy : 0 ≤ y ∧ y < g.height) :
    g.index x y < (g.width * g.height).toNat := by
  have hrow : (x + 1) * g.height ≤ g.width * g.height :=
    Int.mul_le_mul_of_nonneg_right hx.2 (by omega)
  have hcolumn : 0 ≤ x * g.height := Int.mul_nonneg hx.1 (by omega)
  rw [Int.add_mul, Int.one_mul] at hrow
  rw [index]
  omega

/-- A box that is entered into a cell is listed there, if the cell exists. -/
theorem mem_modify {cells : Array (List Nat)} {cell other i j : Nat} :
    j ∈ (cells.modify other (i :: ·)).getD cell [] ↔
      cell < cells.size ∧ (cell, j) = (other, i) ∨ j ∈ cells.getD cell [] := by
  simp only [Array.getD_eq_getD_getElem?, Array.getElem?_modify, Prod.mk.injEq]
  by_cases hcell : cell < cells.size
  · by_cases hother : other = cell
    · subst hother
      simp [hcell]
    · simp [hcell, hother, Ne.symm hother]
  · simp [hcell]

/-- Cells with boxes entered into them, one after the other. -/
def enter (entries : List (Nat × Nat)) (cells : Array (List Nat)) : Array (List Nat) :=
  entries.foldr (fun (cell, i) cells => cells.modify cell (i :: ·)) cells

theorem size_enter (entries : List (Nat × Nat)) (cells : Array (List Nat)) :
    (enter entries cells).size = cells.size := by
  induction entries with
  | nil => rfl
  | cons entry entries ih => rw [enter, List.foldr_cons, Array.size_modify, ← ih, enter]

theorem mem_enter {cell j : Nat} (cells : Array (List Nat)) (entries : List (Nat × Nat)) :
    j ∈ (enter entries cells).getD cell [] ↔
      cell < cells.size ∧ (cell, j) ∈ entries ∨ j ∈ cells.getD cell [] := by
  induction entries with
  | nil => simp [enter]
  | cons entry entries ih =>
      change j ∈ ((enter entries cells).modify entry.1 (entry.2 :: ·)).getD cell [] ↔ _
      rw [mem_modify, size_enter, ih, List.mem_cons, and_or_left, or_assoc]

end Lists

/-! ## Grids over boxes -/

section Over

variable {K : Type} [Scalar K]

/-- The span of a box lies in the grid. -/
theorem cellsOf_span_lt {g : Grid K} (hwidth : 1 ≤ g.width) (hheight : 1 ≤ g.height) {b : Box K}
    {cell : Nat} (hcell : cell ∈ g.cellsOf (g.span b)) : cell < (g.width * g.height).toNat := by
  obtain ⟨x, y, hx, hy, rfl⟩ := mem_cellsOf.mp hcell
  exact index_lt
    ⟨Int.le_trans (intoGrid_nonneg _ _) hx.1, Int.lt_of_le_of_lt hx.2 (intoGrid_lt hwidth)⟩
    ⟨Int.le_trans (intoGrid_nonneg _ _) hy.1, Int.lt_of_le_of_lt hy.2 (intoGrid_lt hheight)⟩

/-- A grid in whose cells the boxes that reach into them are listed. -/
structure Over (g : Grid K) (boxes : List (Box K)) (range : K) : Prop where
  range_eq : g.range = range
  width_pos : 1 ≤ g.width
  height_pos : 1 ≤ g.height
  mem_cells : ∀ cell j, j ∈ g.cells.getD cell [] ↔
    ∃ b, boxes[j]? = some b ∧ cell ∈ g.cellsOf (g.span b)

theorem over_of_ofBoxes? {boxes : List (Box K)} {range : K} {g : Grid K}
    (h : ofBoxes? boxes range = some g) : Over g boxes range := by
  unfold ofBoxes? at h
  split at h
  · cases h
  · split at h
    · cases h
    next e _ =>
      have hwidth : 1 ≤ cellCount e.width range := Int.le_max_right _ _
      have hheight : 1 ≤ cellCount e.height range := Int.le_max_right _ _
      cases h
      constructor
      case range_eq => rfl
      case width_pos => exact hwidth
      case height_pos => exact hheight
      case mem_cells =>
        intro cell j
        let empty : Grid K := ⟨e.minX, e.minY, range, cellCount e.width range,
          cellCount e.height range,
          Array.replicate (cellCount e.width range * cellCount e.height range).toNat []⟩
        have hempty : empty.cells.getD cell [] = [] := by
          rw [Array.getD_eq_getD_getElem?, Array.getElem?_replicate]
          split <;> rfl
        refine (mem_enter empty.cells _).trans ?_
        rw [hempty, Array.size_replicate]
        simp only [List.mem_flatMap, List.mem_map, Prod.exists, Prod.mk.injEq,
          List.mem_zipIdx_iff_getElem?, List.not_mem_nil, or_false]
        constructor
        · rintro ⟨-, b, i, hb, c, hc, rfl, rfl⟩
          exact ⟨b, hb, hc⟩
        · rintro ⟨b, hb, hcell⟩
          exact ⟨cellsOf_span_lt hwidth hheight hcell, b, j, hb, cell, hcell, rfl, rfl⟩

end Over

/-! ## Exact arithmetic -/

theorem exists_ofBoxes? {boxes : List (Box ℝ)} {range : ℝ} (hrange : 0 < range)
    (hboxes : boxes ≠ []) : ∃ g, ofBoxes? boxes range = some g := by
  have hzero : ¬range ≤ (0.0 : ℝ) := by
    rw [not_le]
    norm_num
    exact hrange
  cases boxes with
  | nil => exact absurd rfl hboxes
  | cons b bs =>
      have hcover : Extent.cover? (b :: bs) = some (bs.foldl Extent.grow (Extent.ofBox b)) := rfl
      unfold ofBoxes?
      rw [hcover, if_neg]
      · exact ⟨_, rfl⟩
      · change ¬(!true || decide (range ≤ (0.0 : ℝ))) = true
        simp [hzero]

/-- Boxes within range are not farther apart than the range along an axis, whatever the sizes. -/
theorem le_add_of_abs_sub_le {x y w v range : ℝ}
    (h : |x + w / (2.0 : ℝ) - (y + v / (2.0 : ℝ))| - (w / (2.0 : ℝ) + v / (2.0 : ℝ)) ≤ range) :
    y ≤ x + w + range ∧ x ≤ y + v + range := by
  obtain ⟨hlow, hhigh⟩ := abs_le.mp (sub_le_iff_le_add.mp h)
  norm_num at hlow hhigh
  constructor <;> linarith

theorem within_iff {range : ℝ} {a b : Box ℝ} : Box.within range a b = true ↔
    |a.centerX - b.centerX| - (a.halfWidth + b.halfWidth) ≤ range ∧
      |a.centerY - b.centerY| - (a.halfHeight + b.halfHeight) ≤ range := by
  rw [Box.within, Bool.and_eq_true, decide_eq_true_iff, decide_eq_true_iff]
  rfl

/-- The cell that a coordinate falls into along an axis. -/
noncomputable def cellAt (origin range : ℝ) (size : Int) (x : ℝ) : Int :=
  intoGrid ⌊(x - origin) / range⌋ size

section Axis

variable {range : ℝ} (hrange : 0 < range) (origin : ℝ)
include hrange

theorem cellAt_mono (size : Int) {x y : ℝ} (h : x ≤ y) :
    cellAt origin range size x ≤ cellAt origin range size y :=
  intoGrid_mono (Int.floor_mono (div_le_div_of_nonneg_right (sub_le_sub_right h origin) hrange.le))

/-- A coordinate at most a range ahead falls at most one cell ahead. -/
theorem cellAt_le_add_one (size : Int) {x y : ℝ} (h : x ≤ y + range) :
    cellAt origin range size x ≤ cellAt origin range size y + 1 := by
  have hshift : (y + range - origin) / range = (y - origin) / range + 1 := by
    rw [add_sub_right_comm, add_div, div_self hrange.ne']
  calc cellAt origin range size x
      ≤ cellAt origin range size (y + range) := cellAt_mono hrange origin size h
    _ = intoGrid (⌊(y - origin) / range⌋ + 1) size := by
        rw [cellAt, hshift, Int.floor_add_one]
    _ ≤ cellAt origin range size y + 1 := intoGrid_add_one_le _ _

/-- Two intervals within range have a common cell once the cells of the first are widened. -/
theorem exists_common_cell {size : Int} (hsize : 1 ≤ size) {l r l' r' : ℝ} (hlr : l ≤ r)
    (hlr' : l' ≤ r') (hfirst : l' ≤ r + range) (hsecond : l ≤ r' + range) :
    ∃ k, (max (cellAt origin range size l - 1) 0 ≤ k ∧
        k ≤ min (cellAt origin range size r + 1) (size - 1)) ∧
      cellAt origin range size l' ≤ k ∧ k ≤ cellAt origin range size r' := by
  have hmono := cellAt_mono hrange origin size hlr
  have hmono' := cellAt_mono hrange origin size hlr'
  have hahead := cellAt_le_add_one hrange origin size hfirst
  have hahead' := cellAt_le_add_one hrange origin size hsecond
  have hbounds : ∀ x, 0 ≤ cellAt origin range size x ∧ cellAt origin range size x < size :=
    fun x => ⟨intoGrid_nonneg _ _, intoGrid_lt hsize⟩
  have hl := hbounds l
  have hr := hbounds r
  have hl' := hbounds l'
  have hr' := hbounds r'
  -- the first cell of the second interval, unless the widened interval begins after it
  exact ⟨max (cellAt origin range size l') (max (cellAt origin range size l - 1) 0),
    by omega, by omega⟩

end Axis

/-- Of two boxes within range, the second is listed in the cells around the first. -/
theorem exists_common {g : Grid ℝ} (hrange : 0 < g.range) (hwidth : 1 ≤ g.width)
    (hheight : 1 ≤ g.height) {a b : Box ℝ} (ha : 0 ≤ a.width ∧ 0 ≤ a.height)
    (hb : 0 ≤ b.width ∧ 0 ≤ b.height) (h : Box.within g.range a b = true) :
    ∃ cell, cell ∈ g.cellsOf (g.widen (g.span a)) ∧ cell ∈ g.cellsOf (g.span b) := by
  obtain ⟨hx, hy⟩ := within_iff.mp h
  obtain ⟨hx₁, hx₂⟩ := le_add_of_abs_sub_le hx
  obtain ⟨hy₁, hy₂⟩ := le_add_of_abs_sub_le hy
  -- each axis on its own
  obtain ⟨x, hxa, hxb⟩ := exists_common_cell hrange g.left hwidth
    (le_add_of_nonneg_right ha.1) (le_add_of_nonneg_right hb.1) hx₁ hx₂
  obtain ⟨y, hya, hyb⟩ := exists_common_cell hrange g.top hheight
    (le_add_of_nonneg_right ha.2) (le_add_of_nonneg_right hb.2) hy₁ hy₂
  exact ⟨g.index x y, mem_cellsOf.mpr ⟨x, y, hxa, hya, rfl⟩, mem_cellsOf.mpr ⟨x, y, hxb, hyb, rfl⟩⟩

/-! ## Neighbours -/

section IsNear

variable {K : Type} [Scalar K]

/-- A later box within range of another. -/
def IsNear (boxes : Array (Box K)) (range : K) (i j : Nat) : Prop :=
  i < j ∧ ∃ a b, boxes[i]? = some a ∧ boxes[j]? = some b ∧ Box.within range a b = true

theorem nodup_laterNeighbors (g : Grid K) (boxes : Array (Box K)) (i : Nat) :
    (g.laterNeighbors boxes i).Nodup := by
  unfold laterNeighbors
  split
  · exact List.nodup_nil
  · exact nodup_eraseDups _

end IsNear

/-- A grid finds the later boxes within range, and no others. -/
theorem mem_laterNeighbors {boxes : Array (Box ℝ)} {range : ℝ} {g : Grid ℝ}
    (hover : Over g boxes.toList range) (hrange : 0 < range)
    (hsizes : ∀ b ∈ boxes, 0 ≤ b.width ∧ 0 ≤ b.height) {i j : Nat} :
    j ∈ g.laterNeighbors boxes i ↔ IsNear boxes range i j := by
  obtain ⟨hrange', hwidth, hheight, hcells⟩ := hover
  unfold laterNeighbors IsNear
  cases ha : boxes[i]? with
  | none => simp
  | some a =>
      simp only [List.mem_eraseDups, List.mem_filter, List.mem_flatMap, Bool.and_eq_true,
        decide_eq_true_iff, Option.any_eq_true, hcells, hrange']
      constructor
      · rintro ⟨-, hij, b, hb, hwithin⟩
        exact ⟨hij, a, b, rfl, hb, hwithin⟩
      · rintro ⟨hij, a', b, hsame, hb, hwithin⟩
        cases hsame
        rw [← hrange'] at hrange hwithin
        obtain ⟨cell, hfirst, hsecond⟩ := exists_common hrange hwidth hheight
          (hsizes a (Array.mem_of_getElem? ha)) (hsizes b (Array.mem_of_getElem? hb)) hwithin
        rw [← Array.getElem?_toList] at hb
        refine ⟨⟨cell, hfirst, b, hb, hsecond⟩, hij, b, ?_, hrange' ▸ hwithin⟩
        rw [← hb, Array.getElem?_toList]

end Grid

end RingLayout
