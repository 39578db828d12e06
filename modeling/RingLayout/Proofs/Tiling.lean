import RingLayout.Proofs.Extents

/-! # Tiling what is set aside

Tiles go in rows below the rest of a drawing. A cursor goes along the rows: a tile that it has
passed ends a gap before it in its row, or a gap above its row. So whatever comes next is beside
the tiles of its row and below those of the rows before, however wide and high they are.
-/

namespace RingLayout

theorem Box.intersects_comm (a b : Box ℝ) : a.intersects b = b.intersects a := by
  rw [Bool.eq_iff_iff]
  simp only [intersects, Bool.and_eq_true, decide_eq_true_eq]
  tauto

theorem Box.intersects_eq_false_of_right_le {a b : Box ℝ} (h : a.right ≤ b.left) :
    a.intersects b = false := by
  simp [intersects, h.not_gt]

theorem Box.intersects_eq_false_of_bottom_le {a b : Box ℝ} (h : a.bottom ≤ b.top) :
    a.intersects b = false := by
  simp [intersects, h.not_gt]

namespace Drawing

/-- What rows of tiles have in common: where they begin, how far they should go, and the gaps
within and between them. -/
structure Rows where
  left : ℝ
  width : ℝ
  gapX : ℝ
  gapY : ℝ

namespace Rows

/-! ## The cursor -/

/-- Where a tile goes: to the cursor, or to the next row if the row is not empty and too full. -/
noncomputable def seat (rows : Rows) (cursor : TileCursor ℝ) (b : Box ℝ) : TileCursor ℝ :=
  if rows.left < cursor.x ∧ rows.width < cursor.x + b.width - rows.left then
    ⟨rows.left, cursor.y + (cursor.rowHeight + rows.gapY), 0⟩
  else cursor

/-- The cursor after a tile. -/
noncomputable def pass (rows : Rows) (cursor : TileCursor ℝ) (b : Box ℝ) : TileCursor ℝ :=
  ⟨cursor.x + (b.width + rows.gapX), cursor.y, max b.height cursor.rowHeight⟩

/-- A box that has been moved to a cursor. -/
def place (cursor : TileCursor ℝ) (b : Box ℝ) : Box ℝ :=
  { b with left := cursor.x, top := cursor.y }

/-- Boxes that have been put in rows. -/
noncomputable def fill (rows : Rows) : TileCursor ℝ → List (Box ℝ) → List (Box ℝ)
  | _, [] => []
  | cursor, b :: rest =>
    place (rows.seat cursor b) b :: rows.fill (rows.pass (rows.seat cursor b) b) rest

variable {rows : Rows} {cursor : TileCursor ℝ} {b b' : Box ℝ} {boxes : List (Box ℝ)}

/-- A tile is before another one: beside it in a row that is wide enough for both, or above its
row. -/
inductive Before (rows : Rows) (b b' : Box ℝ) : Prop
  | beside (htop : b.top = b'.top) (hgap : b.right + rows.gapX ≤ b'.left)
      (hwidth : b'.right - rows.left ≤ rows.width)
  | above (hgap : b.bottom + rows.gapY ≤ b'.top)

/-- A tile comes right after another one, at the beginning of a row if it would make the row of
the other one too wide. -/
inductive Follows (rows : Rows) (b b' : Box ℝ) : Prop
  | beside (htop : b.top = b'.top) (hgap : b'.left = b.right + rows.gapX)
  | next (hleft : b'.left = rows.left)
      (hfull : rows.width < b.right + rows.gapX + b'.width - rows.left)

/-- The cursor has passed a tile. -/
inductive Passed (rows : Rows) (cursor : TileCursor ℝ) (b : Box ℝ) : Prop
  | inRow (htop : b.top = cursor.y) (hgap : b.right + rows.gapX ≤ cursor.x)
      (hleft : rows.left < cursor.x) (hheight : b.height ≤ cursor.rowHeight)
  | above (hgap : b.bottom + rows.gapY ≤ cursor.y)

/-- A cursor is in a row, and the row has no negative height. -/
structure OnRow (rows : Rows) (cursor : TileCursor ℝ) : Prop where
  left_le : rows.left ≤ cursor.x
  rowHeight_nonneg : 0 ≤ cursor.rowHeight

section Gaps

variable (hgapX : 0 ≤ rows.gapX) (hgapY : 0 ≤ rows.gapY)

theorem OnRow.seat (h : rows.OnRow cursor) (b : Box ℝ) : rows.OnRow (rows.seat cursor b) := by
  rw [Rows.seat]
  split
  · exact ⟨le_rfl, le_rfl⟩
  · exact h

include hgapX in
theorem OnRow.pass (h : rows.OnRow cursor) (hwidth : 0 < b.width) :
    rows.OnRow (rows.pass cursor b) where
  left_le := h.left_le.trans (le_add_of_nonneg_right (add_nonneg hwidth.le hgapX))
  rowHeight_nonneg := h.rowHeight_nonneg.trans (le_max_right _ _)

include hgapY in
theorem OnRow.le_seat (h : rows.OnRow cursor) (b : Box ℝ) : cursor.y ≤ (rows.seat cursor b).y := by
  rw [Rows.seat]
  split
  · exact le_add_of_nonneg_right (add_nonneg h.rowHeight_nonneg hgapY)
  · exact le_rfl

theorem Passed.seat (h : rows.Passed cursor b) (hcursor : rows.OnRow cursor)
    (hgapY : 0 ≤ rows.gapY) (b' : Box ℝ) : rows.Passed (rows.seat cursor b') b := by
  cases h with
  | inRow htop hgap hleft hheight =>
      rw [Rows.seat]
      split
      next =>
        apply Passed.above
        change b.top + b.height + rows.gapY ≤ cursor.y + (cursor.rowHeight + rows.gapY)
        linarith
      next => exact .inRow htop hgap hleft hheight
  | above hgap => exact .above (hgap.trans (hcursor.le_seat hgapY b'))

/-- A tile that does not begin a row fits into it. -/
theorem seat_fits (h : rows.left < (rows.seat cursor b).x) :
    (rows.seat cursor b).x + b.width - rows.left ≤ rows.width := by
  rw [seat] at h ⊢
  split at h
  next => exact absurd h (lt_irrefl _)
  next hfull =>
    rw [if_neg hfull]
    exact not_lt.mp fun hwide => hfull ⟨h, hwide⟩

/-- What the cursor has passed is before the tile that comes next. -/
theorem Passed.before (h : rows.Passed cursor b) (hcursor : rows.OnRow cursor)
    (hgapY : 0 ≤ rows.gapY) (b' : Box ℝ) : rows.Before b (place (rows.seat cursor b') b') := by
  cases h.seat hcursor hgapY b' with
  | inRow htop hgap hleft _ => exact .beside htop hgap (seat_fits hleft)
  | above hgap => exact .above hgap

include hgapX in
theorem Passed.pass (h : rows.Passed cursor b) (hwidth : 0 < b'.width) :
    rows.Passed (rows.pass cursor b') b := by
  have hx : cursor.x ≤ (rows.pass cursor b').x :=
    le_add_of_nonneg_right (add_nonneg hwidth.le hgapX)
  cases h with
  | inRow htop hgap hleft hheight =>
      exact .inRow htop (hgap.trans hx) (hleft.trans_le hx) (hheight.trans (le_max_right _ _))
  | above hgap => exact .above hgap

include hgapX in
/-- The cursor passes a tile that it has put down. -/
theorem passed_place (hcursor : rows.OnRow cursor) (hwidth : 0 < b.width) :
    rows.Passed (rows.pass cursor b) (place cursor b) := by
  have hleft := hcursor.left_le
  apply Passed.inRow
  case htop => rfl
  case hgap => exact (add_assoc cursor.x b.width rows.gapX).le
  case hleft =>
    change rows.left < cursor.x + (b.width + rows.gapX)
    linarith
  case hheight => exact le_max_left _ _

/-! ## Rows of tiles -/

variable (hcursor : rows.OnRow cursor) (hwidth : ∀ b ∈ boxes, 0 < b.width)
include hgapX hgapY hcursor hwidth

/-- What the cursor has passed is before all tiles to come. -/
theorem Passed.before_of_mem_fill (h : rows.Passed cursor b) :
    ∀ c ∈ rows.fill cursor boxes, rows.Before b c := by
  -- the cursor for the other tiles has passed what this one has
  induction boxes generalizing cursor with
  | nil => exact fun c hc => absurd hc List.not_mem_nil
  | cons b' rest ih =>
      obtain ⟨hb', hrest⟩ := List.forall_mem_cons.mp hwidth
      have hnext := (hcursor.seat b').pass hgapX hb'
      have hpassed := (h.seat hcursor hgapY b').pass hgapX hb'
      exact List.forall_mem_cons.mpr ⟨h.before hcursor hgapY b', ih hnext hrest hpassed⟩

/-- Every tile is before those that come after it. -/
theorem pairwise_fill : (rows.fill cursor boxes).Pairwise rows.Before := by
  induction boxes generalizing cursor with
  | nil => exact List.Pairwise.nil
  | cons b rest ih =>
      obtain ⟨hb, hrest⟩ := List.forall_mem_cons.mp hwidth
      have hseat := hcursor.seat b
      have hnext := hseat.pass hgapX hb
      have hpassed := passed_place hgapX hseat hb
      exact List.pairwise_cons.mpr
        ⟨hpassed.before_of_mem_fill hgapX hgapY hnext hrest, ih hnext hrest⟩

theorem le_of_mem_fill : ∀ c ∈ rows.fill cursor boxes, rows.left ≤ c.left ∧ cursor.y ≤ c.top := by
  induction boxes generalizing cursor with
  | nil => exact fun c hc => absurd hc List.not_mem_nil
  | cons b rest ih =>
      obtain ⟨hb, hrest⟩ := List.forall_mem_cons.mp hwidth
      have hseat := hcursor.seat b
      have hy := hcursor.le_seat hgapY b
      refine List.forall_mem_cons.mpr ⟨⟨hseat.left_le, hy⟩, fun c hc => ?_⟩
      obtain ⟨hleft, htop⟩ := ih (hseat.pass hgapX hb) hrest c hc
      exact ⟨hleft, hy.trans htop⟩

omit hgapY in
/-- Rows are broken where the next tile does not fit. -/
theorem isChain_fill : (rows.fill cursor boxes).IsChain rows.Follows := by
  induction boxes generalizing cursor with
  | nil => exact List.IsChain.nil
  | cons b rest ih =>
      obtain ⟨hb, hrest⟩ := List.forall_mem_cons.mp hwidth
      have htail := ih ((hcursor.seat b).pass hgapX hb) hrest
      cases rest with
      | nil => exact List.IsChain.singleton _
      | cons b' rest =>
          refine List.isChain_cons_cons.mpr ⟨?_, htail⟩
          generalize rows.seat cursor b = cursor
          have hx : cursor.x + (b.width + rows.gapX) = cursor.x + b.width + rows.gapX :=
            (add_assoc ..).symm
          rw [seat]
          split
          next hfull => exact .next rfl (hx ▸ hfull.2)
          next => exact .beside rfl hx

end Gaps

namespace Before

variable (h : rows.Before b b')
include h

theorem not_intersects (hgapX : 0 ≤ rows.gapX) (hgapY : 0 ≤ rows.gapY) :
    b.intersects b' = false := by
  cases h with
  | beside _ hgap _ =>
      exact Box.intersects_eq_false_of_right_le ((le_add_of_nonneg_right hgapX).trans hgap)
  | above hgap =>
      exact Box.intersects_eq_false_of_bottom_le ((le_add_of_nonneg_right hgapY).trans hgap)

theorem top_le (hgapY : 0 ≤ rows.gapY) (hheight : 0 < b.height) : b.top ≤ b'.top := by
  cases h with
  | beside htop _ _ => exact htop.le
  | above hgap =>
      have hbottom : b.bottom = b.top + b.height := rfl
      linarith

theorem above_of_lt (htop : b.top < b'.top) : b.bottom + rows.gapY ≤ b'.top := by
  cases h with
  | beside heq _ _ => exact absurd heq htop.ne
  | above hgap => exact hgap

/-- Tiles with the same top are in one row, since none is flat. -/
theorem beside_of_eq (hgapY : 0 ≤ rows.gapY) (hheight : 0 < b.height) (htop : b.top = b'.top) :
    b.right + rows.gapX ≤ b'.left ∧ b'.right - rows.left ≤ rows.width := by
  cases h with
  | beside _ hgap hwidth => exact ⟨hgap, hwidth⟩
  | above hgap =>
      have hbottom : b.bottom = b.top + b.height := rfl
      linarith

end Before

end Rows

/-! ## Tiles of a drawing -/

variable {members : Nat → List Nat} {d : Drawing ℝ} {rows : Rows} {cursor : TileCursor ℝ}
  {tiles : List Nat}

/-- A drawing with some bodies put in rows. -/
noncomputable def tileFrom (rows : Rows) (cursor : TileCursor ℝ) (tiles : List Nat)
    (d : Drawing ℝ) : Drawing ℝ :=
  (tiles.foldl (placeTile rows.left rows.width rows.gapX rows.gapY) (cursor, d)).2

theorem tileFrom_cons (v : Nat) : tileFrom rows cursor (v :: tiles) d =
    tileFrom rows (rows.pass (rows.seat cursor (d.body v).box) (d.body v).box) tiles
      (d.modifyBody v fun b =>
        { b with box := Rows.place (rows.seat cursor (d.body v).box) b.box }) := by
  have hzero : (0.0 : ℝ) = 0 := by norm_num
  simp only [tileFrom, List.foldl_cons, placeTile, Rows.seat, Rows.pass, Rows.place,
    Scalar.maxNum_real, hzero]

theorem body_tileFrom_of_notMem (rows : Rows) (cursor : TileCursor ℝ) {u : Nat} (hu : u ∉ tiles) :
    (tileFrom rows cursor tiles d).body u = d.body u := by
  induction tiles generalizing cursor d with
  | nil => rfl
  | cons v rest ih =>
      rw [tileFrom_cons, ih _ (List.not_mem_of_not_mem_cons hu),
        body_modifyBody_of_ne _ (List.ne_of_not_mem_cons hu)]

/-- Tiles only move. -/
theorem exists_body_tileFrom (rows : Rows) (cursor : TileCursor ℝ) (tiles : List Nat)
    (d : Drawing ℝ) (u : Nat) : ∃ left top, (tileFrom rows cursor tiles d).body u =
    { d.body u with box := { (d.body u).box with left := left, top := top } } := by
  let pinned (b : Body ℝ) : Body ℝ := { b with box := { b.box with left := 0, top := 0 } }
  have hpinned : pinned ((tileFrom rows cursor tiles d).body u) = pinned (d.body u) := by
    induction tiles generalizing cursor d with
    | nil => rfl
    | cons v rest ih =>
        rw [tileFrom_cons, ih]
        exact view_modifyBody pinned d v u fun _ => rfl
  refine ⟨((tileFrom rows cursor tiles d).body u).box.left,
    ((tileFrom rows cursor tiles d).body u).box.top, ?_⟩
  exact congrArg (fun b : Body ℝ => { b with box := { b.box with
    left := ((tileFrom rows cursor tiles d).body u).box.left
    top := ((tileFrom rows cursor tiles d).body u).box.top } }) hpinned

theorem rest_tileFrom (d : Drawing ℝ) :
    { tileFrom rows cursor tiles d with bodies := d.bodies } = d := by
  let rest (state : TileCursor ℝ × Drawing ℝ) : Drawing ℝ := { state.2 with bodies := d.bodies }
  change rest (tiles.foldl _ (cursor, d)) = rest (cursor, d)
  refine foldl_eq_of_step_eq rest (fun state v => ?_) tiles (cursor, d)
  rfl

theorem size_tileFrom (d : Drawing ℝ) :
    (tileFrom rows cursor tiles d).bodies.size = d.bodies.size := by
  let size (state : TileCursor ℝ × Drawing ℝ) : Nat := state.2.bodies.size
  change size (tiles.foldl _ (cursor, d)) = d.bodies.size
  exact foldl_eq_of_step_eq size (fun _ _ => Array.size_modify) tiles (cursor, d)

theorem boxes_tileFrom (rows : Rows) (cursor : TileCursor ℝ) (hnodup : tiles.Nodup)
    (hsize : ∀ v ∈ tiles, v < d.bodies.size) :
    tiles.map (fun v => ((tileFrom rows cursor tiles d).body v).box) =
      rows.fill cursor (tiles.map fun v => (d.body v).box) := by
  induction tiles generalizing cursor d with
  | nil => rfl
  | cons v rest ih =>
      obtain ⟨hv, hnodup⟩ := List.nodup_cons.mp hnodup
      obtain ⟨hvsize, hsize⟩ := List.forall_mem_cons.mp hsize
      rw [tileFrom_cons, List.map_cons, body_tileFrom_of_notMem _ _ hv, body_modifyBody d hvsize,
        if_pos rfl, ih _ hnodup, List.map_cons, Rows.fill]
      · refine congrArg (List.cons _) (congrArg (rows.fill _) ?_)
        refine List.map_congr_left fun u hu => ?_
        rw [body_modifyBody_of_ne _ (ne_of_mem_of_not_mem hu hv)]
      · intro u hu
        rw [modifyBody, Array.size_modify]
        exact hsize u hu

/-! ## What is drawn -/

/-- The boxes of the bodies that are not set aside. -/
def drawnBoxes (d : Drawing ℝ) : Set (Box ℝ) := (fun u => (d.body u).box) '' {u | d.Active u}

/-- The area of the bodies that are set aside, each with its gaps. -/
noncomputable def tileArea (gapX gapY : ℝ) (d : Drawing ℝ) : ℝ :=
  (d.tiled.map fun v => ((d.body v).box.width + gapX) * ((d.body v).box.height + gapY)).sum

/-- The rows for the bodies that are set aside. They begin with what is drawn and are as wide, or
as wide as a square of the area of all tiles if that is wider. If nothing is drawn, they begin at
0 and are as wide as the square. -/
noncomputable def tileRows (gapX gapY : ℝ) (d : Drawing ℝ) : Rows where
  left := sInf (Box.left '' d.drawnBoxes)
  width := max (sSup (Box.right '' d.drawnBoxes) - sInf (Box.left '' d.drawnBoxes))
    √(d.tileArea gapX gapY)
  gapX := gapX
  gapY := gapY

theorem bounds_drawn (hd : d.skeleton.Sound members) {e : Extent ℝ}
    (h : d.rootsExtent? d.roots = some e) : e.Bounds d.drawnBoxes := by
  have hactive : {u | d.Active u} = {u | d.representative u ∈ d.roots} :=
    Set.ext fun u => active_iff hd
  rw [drawnBoxes, hactive]
  exact bounds_rootsExtent? hd (List.Subset.refl _) h

theorem drawnBoxes_eq_empty (hd : d.skeleton.Sound members) (h : d.rootsExtent? d.roots = none) :
    d.drawnBoxes = ∅ := by
  have hroots : d.roots = [] := by
    by_contra hne
    obtain ⟨e, he⟩ := d.exists_rootsExtent? hne
    rw [he] at h
    cases h
  rw [drawnBoxes, Set.image_eq_empty, Set.eq_empty_iff_forall_notMem]
  intro u hu
  have hmem := (active_iff hd).mp hu
  rw [hroots] at hmem
  exact List.not_mem_nil hmem

/-- Tiling puts what is set aside in rows from a cursor below all that is drawn. -/
theorem exists_tileIsolated_eq (hd : d.skeleton.Sound members) (paddingX paddingY : ℝ) :
    ∃ y, (∀ b ∈ d.drawnBoxes, b.bottom + max 0 paddingY ≤ y) ∧ d.tileIsolated paddingX paddingY =
      tileFrom (d.tileRows (max 0 paddingX) (max 0 paddingY))
        ⟨(d.tileRows (max 0 paddingX) (max 0 paddingY)).left, y, 0⟩ d.tiled d := by
  have hzero : (0.0 : ℝ) = 0 := by norm_num
  cases hextent : d.rootsExtent? d.roots with
  | some e =>
      have hbounds := bounds_drawn hd hextent
      refine ⟨e.maxY + max 0 paddingY, fun b hb => ?_, ?_⟩
      · exact add_le_add_left (hbounds.maxY.2 ⟨b, hb, rfl⟩) _
      · simp only [tileIsolated, hextent, tileFrom, tileRows, Scalar.maxNum_real, hzero,
          Scalar.sum_real, hbounds.minX.csInf_eq, hbounds.maxX.csSup_eq]
        rw [max_comm]
        rfl
  | none =>
      refine ⟨0, ?_, ?_⟩
      · rw [drawnBoxes_eq_empty hd hextent]
        exact fun b hb => absurd hb (Set.notMem_empty b)
      · simp only [tileIsolated, hextent, tileFrom, tileRows, Scalar.maxNum_real, hzero,
          Scalar.sum_real, drawnBoxes_eq_empty hd hextent, Set.image_empty, Real.sInf_empty,
          Real.sSup_empty, sub_zero, max_eq_right (Real.sqrt_nonneg _)]
        rfl

/-! ## Tiles in rows -/

/-- Tiles that have been put in rows from a top edge on. -/
structure InRows (rows : Rows) (top : ℝ) (tiles : List Nat) (d : Drawing ℝ) : Prop where
  gapX_nonneg : 0 ≤ rows.gapX
  gapY_nonneg : 0 ≤ rows.gapY
  width_pos : ∀ v ∈ tiles, 0 < (d.body v).box.width
  height_pos : ∀ v ∈ tiles, 0 < (d.body v).box.height
  left_le : ∀ v ∈ tiles, rows.left ≤ (d.body v).box.left
  top_le : ∀ v ∈ tiles, top ≤ (d.body v).box.top
  before_or : ∀ u ∈ tiles, ∀ v ∈ tiles, u ≠ v →
    rows.Before (d.body u).box (d.body v).box ∨ rows.Before (d.body v).box (d.body u).box
  follows : (tiles.map fun v => (d.body v).box).IsChain rows.Follows

namespace InRows

variable {top : ℝ} (h : InRows rows top tiles d) {u v w : Nat} (hu : u ∈ tiles) (hv : v ∈ tiles)
include h hu hv

theorem not_intersects (hne : u ≠ v) : (d.body u).box.intersects (d.body v).box = false := by
  rcases h.before_or u hu v hv hne with hbefore | hbefore
  · exact hbefore.not_intersects h.gapX_nonneg h.gapY_nonneg
  · rw [Box.intersects_comm]
    exact hbefore.not_intersects h.gapX_nonneg h.gapY_nonneg

/-- Of two tiles of one row one is beside the other, and the row is wide enough for both. -/
theorem beside_or (hne : u ≠ v) (htop : (d.body u).box.top = (d.body v).box.top) :
    ((d.body u).box.right + rows.gapX ≤ (d.body v).box.left ∧
      (d.body v).box.right - rows.left ≤ rows.width) ∨
    ((d.body v).box.right + rows.gapX ≤ (d.body u).box.left ∧
      (d.body u).box.right - rows.left ≤ rows.width) := by
  rcases h.before_or u hu v hv hne with hbefore | hbefore
  · exact Or.inl (hbefore.beside_of_eq h.gapY_nonneg (h.height_pos u hu) htop)
  · exact Or.inr (hbefore.beside_of_eq h.gapY_nonneg (h.height_pos v hv) htop.symm)

theorem gap_of_rows (htop : (d.body u).box.top < (d.body v).box.top) :
    (d.body u).box.bottom + rows.gapY ≤ (d.body v).box.top := by
  have hne : u ≠ v := fun heq => htop.ne (heq ▸ rfl)
  rcases h.before_or u hu v hv hne with hbefore | hbefore
  · exact hbefore.above_of_lt htop
  · exact absurd htop (hbefore.top_le h.gapY_nonneg (h.height_pos v hv)).not_gt

/-- A row of several tiles is not wider than rows should be. -/
theorem eq_of_wide (hwide : rows.width < (d.body v).box.right - (d.body u).box.left)
    (hw : w ∈ tiles) (htop : (d.body w).box.top = (d.body v).box.top) : w = v := by
  by_contra hne
  have hleft := h.left_le u hu
  rcases h.beside_or hw hv hne htop with ⟨-, hfits⟩ | ⟨hgap, hfits⟩
  · linarith
  · have hright : (d.body w).box.right = (d.body w).box.left + (d.body w).box.width := rfl
    have hwidth := h.width_pos w hw
    have hgapX := h.gapX_nonneg
    linarith

end InRows

/-- Bodies that are put in rows from a cursor at the beginning of a row are in rows. -/
theorem inRows_tileFrom (hgapX : 0 ≤ rows.gapX) (hgapY : 0 ≤ rows.gapY)
    (hcursor : rows.OnRow cursor) (hnodup : tiles.Nodup)
    (hsize : ∀ v ∈ tiles, v < d.bodies.size) (hwidth : ∀ v ∈ tiles, 0 < (d.body v).box.width)
    (hheight : ∀ v ∈ tiles, 0 < (d.body v).box.height) :
    InRows rows cursor.y tiles (tileFrom rows cursor tiles d) := by
  have hsame : ∀ u, ((tileFrom rows cursor tiles d).body u).box.size = (d.body u).box.size := by
    intro u
    obtain ⟨left, top, hbody⟩ := exists_body_tileFrom rows cursor tiles d u
    rw [hbody]
    rfl
  have hwidths : ∀ b ∈ tiles.map fun v => (d.body v).box, 0 < b.width :=
    List.forall_mem_map.mpr hwidth
  have hboxes := boxes_tileFrom rows cursor hnodup hsize
  have hcorner : ∀ v ∈ tiles, rows.left ≤ ((tileFrom rows cursor tiles d).body v).box.left ∧
      cursor.y ≤ ((tileFrom rows cursor tiles d).body v).box.top := by
    rw [← List.forall_mem_map (P := fun b : Box ℝ => rows.left ≤ b.left ∧ cursor.y ≤ b.top), hboxes]
    exact Rows.le_of_mem_fill hgapX hgapY hcursor hwidths
  constructor
  case gapX_nonneg => exact hgapX
  case gapY_nonneg => exact hgapY
  case width_pos => exact fun v hv => (hwidth v hv).trans_eq (congrArg Prod.fst (hsame v)).symm
  case height_pos => exact fun v hv => (hheight v hv).trans_eq (congrArg Prod.snd (hsame v)).symm
  case left_le => exact fun v hv => (hcorner v hv).1
  case top_le => exact fun v hv => (hcorner v hv).2
  case before_or =>
    intro u hu v hv hne
    let related (u v : Nat) : Prop :=
      rows.Before ((tileFrom rows cursor tiles d).body u).box
          ((tileFrom rows cursor tiles d).body v).box ∨
        rows.Before ((tileFrom rows cursor tiles d).body v).box
          ((tileFrom rows cursor tiles d).body u).box
    have hsymm : Std.Symm related := ⟨fun _ _ => Or.symm⟩
    have hpairs := Rows.pairwise_fill hgapX hgapY hcursor hwidths
    rw [← hboxes, List.pairwise_map] at hpairs
    have hrelated : tiles.Pairwise related := hpairs.imp Or.inl
    exact hrelated.forall hu hv hne
  case follows => exact hboxes ▸ Rows.isChain_fill hgapX hcursor hwidths

/-! ## Tiled drawings -/

/-- The second drawing is the first one with what is set aside put in rows. -/
structure Tiled (gapX gapY : ℝ) (d d' : Drawing ℝ) : Prop where
  rest_eq : { d' with bodies := d.bodies } = d
  size_eq : d'.bodies.size = d.bodies.size
  /-- Only what is set aside moves. -/
  body_eq : ∀ u ∉ d.tiled, d'.body u = d.body u
  exists_body_eq : ∀ u, ∃ left top, d'.body u =
    { d.body u with box := { (d.body u).box with left := left, top := top } }
  tiles_apart : ∀ u ∈ d.tiled, ∀ v ∈ d.tiled, u ≠ v →
    (d'.body u).box.intersects (d'.body v).box = false
  drawn_apart : ∀ u, d.Active u → ∀ v ∈ d.tiled,
    (d'.body u).box.intersects (d'.body v).box = false
  /-- Two tiles of one row have a gap between them. -/
  gap_in_row : ∀ u ∈ d.tiled, ∀ v ∈ d.tiled, u ≠ v →
    (d'.body u).box.top = (d'.body v).box.top →
      (d'.body u).box.right + gapX ≤ (d'.body v).box.left ∨
        (d'.body v).box.right + gapX ≤ (d'.body u).box.left
  /-- A row is a gap below all tiles of the rows above. -/
  gap_of_rows : ∀ u ∈ d.tiled, ∀ v ∈ d.tiled, (d'.body u).box.top < (d'.body v).box.top →
    (d'.body u).box.bottom + gapY ≤ (d'.body v).box.top
  /-- All rows are a gap below all that is drawn. -/
  gap_of_drawn : ∀ u, d.Active u → ∀ v ∈ d.tiled,
    (d'.body u).box.bottom + gapY ≤ (d'.body v).box.top
  /-- A row that is wider than rows should be has no more than one tile. -/
  single_of_wide : ∀ u ∈ d.tiled, ∀ v ∈ d.tiled, (d'.body u).box.top = (d'.body v).box.top →
    (d.tileRows gapX gapY).width < (d'.body v).box.right - (d'.body u).box.left →
      ∀ w ∈ d.tiled, (d'.body w).box.top = (d'.body v).box.top → w = v
  /-- Rows are not broken without need. -/
  follows : (d.tiled.map fun v => (d'.body v).box).IsChain (d.tileRows gapX gapY).Follows

theorem nodup_tiled (hd : d.skeleton.Sound members) : d.tiled.Nodup := by
  have hparts := hd.seated.parts_perm.nodup_iff.mpr List.nodup_range
  exact (List.nodup_append.mp hparts).2.1

theorem lt_size_of_mem_tiled (hd : d.skeleton.Sound members) : ∀ v ∈ d.tiled, v < d.bodies.size :=
  fun _ hv => List.mem_range.mp
    (hd.seated.parts_perm.mem_iff.mp (List.mem_append_right _ hv))

section Tiled

variable {gapX gapY y : ℝ} (hy : ∀ b ∈ d.drawnBoxes, b.bottom + gapY ≤ y)
include hy

/-- A drawing is tiled if its tiles are in rows below what is drawn and nothing else is new. -/
theorem tiled_of_inRows {d' : Drawing ℝ} (h : InRows (d.tileRows gapX gapY) y d.tiled d')
    (hrest : { d' with bodies := d.bodies } = d) (hsize : d'.bodies.size = d.bodies.size)
    (hother : ∀ u ∉ d.tiled, d'.body u = d.body u)
    (hmoved : ∀ u, ∃ left top, d'.body u =
      { d.body u with box := { (d.body u).box with left := left, top := top } }) :
    Tiled gapX gapY d d' := by
  have hbelow : ∀ u, d.Active u → ∀ v ∈ d.tiled,
      (d'.body u).box.bottom + gapY ≤ (d'.body v).box.top := by
    intro u hu v hv
    rw [hother u hu.2]
    exact (hy _ ⟨u, hu, rfl⟩).trans (h.top_le v hv)
  constructor
  case rest_eq => exact hrest
  case size_eq => exact hsize
  case body_eq => exact hother
  case exists_body_eq => exact hmoved
  case tiles_apart => exact fun u hu v hv => h.not_intersects hu hv
  case drawn_apart =>
    intro u hu v hv
    exact Box.intersects_eq_false_of_bottom_le
      ((le_add_of_nonneg_right h.gapY_nonneg).trans (hbelow u hu v hv))
  case gap_in_row =>
    intro u hu v hv hne htop
    exact (h.beside_or hu hv hne htop).imp And.left And.left
  case gap_of_rows => exact fun u hu v hv => h.gap_of_rows hu hv
  case gap_of_drawn => exact hbelow
  case single_of_wide => exact fun u hu v hv _ hwide w => h.eq_of_wide hu hv hwide
  case follows => exact h.follows

theorem Proper.tiled_tileFrom (h : Proper members d) (hgapX : 0 ≤ gapX) (hgapY : 0 ≤ gapY) :
    Tiled gapX gapY d
      (tileFrom (d.tileRows gapX gapY) ⟨(d.tileRows gapX gapY).left, y, 0⟩ d.tiled d) := by
  have hsize := lt_size_of_mem_tiled h.sound
  have hwidth : ∀ v ∈ d.tiled, 0 < (d.body v).box.width :=
    fun v hv => zero_lt_one.trans_le (h.one_le_width v (hsize v hv))
  have hheight : ∀ v ∈ d.tiled, 0 < (d.body v).box.height :=
    fun v hv => zero_lt_one.trans_le (h.one_le_height v (hsize v hv))
  have hcursor : (d.tileRows gapX gapY).OnRow ⟨(d.tileRows gapX gapY).left, y, 0⟩ :=
    ⟨le_rfl, le_rfl⟩
  apply tiled_of_inRows hy
  case h => exact inRows_tileFrom hgapX hgapY hcursor (nodup_tiled h.sound) hsize hwidth hheight
  case hrest => exact rest_tileFrom d
  case hsize => exact size_tileFrom d
  case hother => exact fun u => body_tileFrom_of_notMem _ _
  case hmoved => exact exists_body_tileFrom _ _ _ _

end Tiled

end Drawing

/-- In exact arithmetic every drawing that comes up in a run is tiled by tiling it. A gap that is
negative counts as none. -/
theorem Run.tiled_of_visits {g : Graph ℝ} {o : Options ℝ} {start : Run ℝ}
    (h : create g o = .ok start) {d : Drawing ℝ} (hd : start.Visits d) (paddingX paddingY : ℝ) :
    Drawing.Tiled (max 0 paddingX) (max 0 paddingY) d (d.tileIsolated paddingX paddingY) := by
  obtain ⟨built, hbuild, rfl⟩ := create_eq_ok h
  have hproper := hd.proper hbuild
  obtain ⟨y, hy, heq⟩ := Drawing.exists_tileIsolated_eq hproper.sound paddingX paddingY
  rw [heq]
  exact hproper.tiled_tileFrom hy (le_max_left _ _) (le_max_left _ _)

theorem Run.tiled_partsAndLoners : ∃ start : Run ℝ,
    create Drawing.partsAndLoners Drawing.pairRing = .ok start ∧
      (start.afterAll [.prerun]).drawing.tiled = [5, 6] ∧
      Drawing.Tiled (max 0 10) (max 0 (-5)) (start.afterAll [.prerun]).drawing
        ((start.afterAll [.prerun]).drawing.tileIsolated 10 (-5)) := by
  refine ⟨_, create_partsAndLoners, ?_, tiled_of_visits create_partsAndLoners (.after [.prerun]) _ _⟩
  have hsound := Drawing.sound_build Drawing.build_partsAndLoners
  exact (((Visits.after [.prerun]).moves hsound).evolves hsound).tiled_eq

end RingLayout
