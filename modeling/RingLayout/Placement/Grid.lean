import RingLayout.Box.Extent

/-! # Neighbourhood grid

Boxes within a range of each other are found through a grid of cells as wide as the range: each
box is listed in all cells that it reaches into, and its neighbours are listed in those cells or
in the ring of cells around them.
-/

namespace RingLayout

open Scalar

variable {K : Type} [Scalar K]

/-- Whether the gap between two boxes is at most `range` along both axes. -/
@[inline] def Box.within (range : K) (a b : Box K) : Bool :=
  decide (Scalar.abs (a.centerX - b.centerX) - (a.halfWidth + b.halfWidth) ≤ range) &&
    decide (Scalar.abs (a.centerY - b.centerY) - (a.halfHeight + b.halfHeight) ≤ range)

/-- A rectangle of cells, both ends included. -/
structure CellSpan where
  firstX : Int
  lastX : Int
  firstY : Int
  lastY : Int

/-- A grid over some boxes. -/
structure Grid (K : Type) where
  left : K
  top : K
  range : K
  width : Int
  height : Int
  /-- The boxes listed in every cell, column by column. -/
  cells : Array (List Nat)

namespace Grid

def between (first last : Int) : List Int :=
  (List.range (last - first + 1).toNat).map fun k : Nat => first + k

/-- A cell number along an axis of `size` cells, moved into the grid. -/
def intoGrid (cell size : Int) : Int := max 0 (min cell (size - 1))

/-- The number of cells that an extent takes along an axis. -/
@[specialize] def cellCount (extent range : K) : Int :=
  max (floorInt (maxNum extent 1.0 / range) + 1) 1

def index (g : Grid K) (x y : Int) : Nat := (x * g.height + y).toNat

@[specialize] def span (g : Grid K) (b : Box K) : CellSpan :=
  let cell (x origin : K) (size : Int) : Int := intoGrid (floorInt ((x - origin) / g.range)) size
  { firstX := cell b.left g.left g.width
    lastX := cell b.right g.left g.width
    firstY := cell b.top g.top g.height
    lastY := cell b.bottom g.top g.height }

def cellsOf (g : Grid K) (s : CellSpan) : List Nat :=
  (between s.firstX s.lastX).flatMap fun x => (between s.firstY s.lastY).map (g.index x)

/-- A span and the ring of cells around it, as far as the grid goes. -/
def widen (g : Grid K) (s : CellSpan) : CellSpan :=
  { firstX := max (s.firstX - 1) 0
    lastX := min (s.lastX + 1) (g.width - 1)
    firstY := max (s.firstY - 1) 0
    lastY := min (s.lastY + 1) (g.height - 1) }

/-- The grid of some boxes; `none` where the range or the bounds allow none. -/
@[specialize] def ofBoxes? (boxes : List (Box K)) (range : K) : Option (Grid K) :=
  if !Scalar.isFinite range || decide (range ≤ 0.0) then none
  else
    match Extent.cover? boxes with
    | none => none
    | some e =>
      let width := cellCount e.width range
      let height := cellCount e.height range
      let empty : Grid K :=
        ⟨e.minX, e.minY, range, width, height, Array.replicate (width * height).toNat []⟩
      let entries := boxes.zipIdx.flatMap fun (b, i) => (empty.cellsOf (empty.span b)).map (·, i)
      some { empty with
        cells := entries.foldr (fun (cell, i) cells => cells.modify cell (i :: ·)) empty.cells }

/-- The later boxes within range of a box, each once, in the order of the cells. -/
@[specialize] def laterNeighbors (g : Grid K) (boxes : Array (Box K)) (i : Nat) : List Nat :=
  match boxes[i]? with
  | none => []
  | some a =>
    let listed := (g.cellsOf (g.widen (g.span a))).flatMap fun cell => g.cells.getD cell []
    (listed.filter fun j => decide (i < j) && boxes[j]?.any (Box.within g.range a)).eraseDups

end Grid

end RingLayout
