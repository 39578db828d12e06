import RingLayout.Drawing.Quotient
import RingLayout.Drawing.Rings

/-! # Packing and tiling

After the simulation the components stand side by side, the bodies set aside fill rows below them,
and the whole drawing can be moved to a given center.
-/

namespace RingLayout.Drawing

open Scalar

variable {K : Type} [Scalar K]

/-- The boxes that move with a root: its own and those of its ring's members. -/
@[specialize] def boxesAt (d : Drawing K) (v : Nat) : List (Box K) :=
  let b := d.body v
  match b.role.hub? with
  | some c => b.box :: ((d.ring c).order ++ (d.ring c).inside).map fun u => (d.body u).box
  | none => [b.box]

@[specialize] def rootsExtent? (d : Drawing K) (roots : List Nat) : Option (Extent K) :=
  Extent.cover? (roots.flatMap d.boxesAt)

@[specialize] def translateRoot (delta : Point K) (d : Drawing K) (v : Nat) : Drawing K :=
  match (d.body v).role.hub? with
  | some c => d.translateRing c delta
  | none => d.translateBody v delta

/-- The roots of every component, with their extent; components without finite extent are left
out. -/
@[specialize] def componentExtents (d : Drawing K) : List (Extent K × List Nat) :=
  d.rootComponents.filterMap fun component =>
    let roots := component.map fun i => d.roots.getD i 0
    (d.rootsExtent? roots).map fun e => (e, roots)

/-- Moves components along the horizontal axis, one after the other, each `spacing` from the one
before; `cursor` is the left edge of the next. -/
@[specialize] def lineUp (spacing : K) :
    K → List (Extent K × List Nat) → Drawing K → Drawing K
  | _, [], d => d
  | cursor, (e, roots) :: rest, d =>
    let dx := cursor - e.minX
    let d := if 1e-6 < Scalar.abs dx then roots.foldl (translateRoot ⟨dx, 0.0⟩) d else d
    lineUp spacing (cursor + (e.width + spacing)) rest d

/-- Lines the components up from left to right. Gives their number. -/
@[specialize] def packComponents (d : Drawing K) (spacing : K) : Nat × Drawing K :=
  if d.roots.length < 2 then (d.roots.length, d)
  else
    let components := d.rootComponents
    if components.length < 2 then (components.length, d)
    else
      let items := d.componentExtents.mergeSort fun a b => sortLe a.1.minX b.1.minX
      match items with
      | [] => (0, d)
      | (e, _) :: _ => (items.length, lineUp spacing e.minX items d)

/-- Where the next tile goes. -/
structure TileCursor (K : Type) where
  x : K
  y : K
  rowHeight : K

/-- Puts a body into the current row, or into a new one if the row is not empty and too full. -/
@[specialize] def placeTile (startX rowWidth padX padY : K)
    (state : TileCursor K × Drawing K) (v : Nat) : TileCursor K × Drawing K :=
  let (cursor, d) := state
  let box := (d.body v).box
  let cursor :=
    if startX < cursor.x ∧ rowWidth < cursor.x + box.width - startX then
      ⟨startX, cursor.y + (cursor.rowHeight + padY), 0.0⟩
    else cursor
  let d := d.modifyBody v fun b =>
    { b with box := { b.box with left := cursor.x, top := cursor.y } }
  (⟨cursor.x + (box.width + padX), cursor.y, maxNum cursor.rowHeight box.height⟩, d)

/-- Places the bodies set aside in rows below the rest. A row is as wide as the drawing, or as a
square of the area of all tiles if that is wider. -/
@[specialize] def tileIsolated (d : Drawing K) (paddingX paddingY : K) : Drawing K :=
  let padX := maxNum paddingX 0.0
  let padY := maxNum paddingY 0.0
  let area := sum (d.tiled.map fun v =>
    let box := (d.body v).box
    (box.width + padX) * (box.height + padY))
  let side := sqrt area
  match d.rootsExtent? d.roots with
  | some e =>
    (d.tiled.foldl (placeTile e.minX (maxNum e.width side) padX padY)
      (⟨e.minX, e.maxY + padY, 0.0⟩, d)).2
  | none => (d.tiled.foldl (placeTile 0.0 side padX padY) (⟨0.0, 0.0, 0.0⟩, d)).2

/-- Moves everything so that the drawn nodes are centered on a point. -/
@[specialize] def centerOn (d : Drawing K) (target : Point K) : Drawing K :=
  match Extent.cover? d.nodeBoxes with
  | some e =>
    let delta := target.sub e.center
    { d with bodies := d.bodies.map (·.translate delta) }
  | none => d

end RingLayout.Drawing
