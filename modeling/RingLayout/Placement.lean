import RingLayout.Box.Force
import RingLayout.Cooling
import RingLayout.Drawing.Motion
import RingLayout.Placement.Grid

/-! # Placing the rings

Before the simulation proper, the roots are placed by a spring embedder of their own. Every ring
takes part as a square somewhat larger than its hub, and parallel links count once.
-/

namespace RingLayout

open Scalar

structure Placed (K : Type) where
  root : Nat
  box : Box K
  spring : Point K
  repulsion : Point K
  /-- The later roots near enough to be repelled. -/
  near : List Nat

/-- The state of the placement of the roots. -/
structure Placement (K : Type) where
  items : Array (Placed K)
  /-- The linked pairs of items, each with its ideal length. -/
  springs : List (Nat × Nat × K)
  forces : ForceSettings K
  /-- The distance from the middle beyond which gravity acts. -/
  gravityReach : K
  repulsionRange : K
  maxIterations : Nat
  /-- The total displacement below which the placement has settled. -/
  threshold : K
  iteration : Nat
  cooling : Cooling K
  oldDisplacement : K
  lastDisplacement : K
  done : Bool

namespace Placement

variable {K : Type} [Scalar K]

/-- The iterations after which the lists of near roots are renewed. -/
def refreshPeriod : Nat := 10

def minIterations : Nat := 1000

/-- The number of roots up to which all pairs are compared. -/
def smallCount : Nat := 64

@[specialize] def rootBox (d : Drawing K) (ideal : K) (v : Nat) : Box K :=
  let b := d.body v
  match b.role.hub? with
  | some c =>
    let r := d.ring c
    let side := 2.0 * r.radius + d.longestDiagonal r.order + ideal
    Box.centered b.center side side
  | none => Box.centered b.center b.box.width b.box.height

/-- The first pair of every two positions, in order. -/
def distinctPairs (seen : List (Nat × Nat)) : List (Nat × Nat) → List (Nat × Nat)
  | [] => []
  | (a, b) :: rest =>
    if (a, b) ∈ seen ∨ (b, a) ∈ seen then distinctPairs seen rest
    else (a, b) :: distinctPairs ((a, b) :: seen) rest

/-- The placement of a drawing's roots from where they are. -/
@[specialize] def ofDrawing (d : Drawing K) (o : Options K) : Placement K :=
  let ideal := o.effectiveEdgeLength
  let items := (d.roots.map fun v =>
    (⟨v, rootBox d ideal v, .origin, .origin, []⟩ : Placed K)).toArray
  let isRing (i : Nat) : Bool := (d.roots[i]?).any fun v => (d.body v).isHub
  let springs := (distinctPairs [] d.rootPairs).map fun (a, b) =>
    (a, b, if isRing a || isRing b then o.interClusterLength else ideal)
  let n := items.size
  let forces := ForceSettings.ofOptions o
  let maxIterations := max minIterations (n * 5)
  { items := items
    springs := springs
    forces := forces
    gravityReach := Drawing.estimatedSize (items.toList.map (·.box)) * forces.gravityRange
    repulsionRange := maxNum (2.0 * ideal) 1.0
    maxIterations := maxIterations
    threshold := 3.0 * ideal / 100.0 * (n : K)
    iteration := 0
    cooling := Cooling.start ((maxIterations : K) / (Cooling.period : K))
    oldDisplacement := 0.0
    lastDisplacement := 0.0
    done := false }

/-- A single root needs no placing. -/
def begin (p : Placement K) : Placement K :=
  if p.items.size ≤ 1 then { p with done := true } else p

/-- An item without size, which stands for a number that names no item. -/
@[specialize] def blank : Placed K := ⟨0, ⟨0.0, 0.0, 0.0, 0.0⟩, .origin, .origin, []⟩

@[specialize] def addSpring (s : ForceSettings K) (items : Array (Placed K))
    (spring : Nat × Nat × K) : Array (Placed K) :=
  let (a, b, ideal) := spring
  let f := Box.springForce (items.getD a blank).box (items.getD b blank).box ideal s.elasticity
  (items.modify a fun i => { i with spring := i.spring.add f }).modify b
    fun i => { i with spring := i.spring.sub f }

@[specialize] def addRepulsion (s : ForceSettings K) (a : Nat) (items : Array (Placed K))
    (b : Nat) : Array (Placed K) :=
  let f := Box.repulsionForce (items.getD a blank).box (items.getD b blank).box
    s.repulsion s.minGap s.buffer
  (items.modify a fun i => { i with repulsion := i.repulsion.add f }).modify b
    fun i => { i with repulsion := i.repulsion.sub f }

/-- The later items near an item, all of them compared. -/
@[specialize] def nearAmongAll (boxes : Array (Box K)) (range : K) (i : Nat) : List Nat :=
  match boxes[i]? with
  | none => []
  | some a =>
    (List.range' (i + 1) (boxes.size - i - 1)).filter fun j => boxes[j]?.any (Box.within range a)

/-- The near items of every item, found by comparing all pairs or through a grid. -/
@[specialize] def nearLists (boxes : Array (Box K)) (range : K) : List (List Nat) :=
  let all := List.range boxes.size
  if boxes.size ≤ smallCount then all.map (nearAmongAll boxes range)
  else
    match Grid.ofBoxes? boxes.toList range with
    | some g => all.map (g.laterNeighbors boxes)
    | none => all.map fun _ => []

@[specialize] def renewNear (p : Placement K) : Placement K :=
  let near := (nearLists (p.items.map (·.box)) p.repulsionRange).toArray
  { p with items := Array.zipWith (fun i list => { i with near := list }) p.items near }

@[specialize] def repel (p : Placement K) : Placement K :=
  let items := (List.range p.items.size).foldl
    (fun items i => (items.getD i blank).near.foldl (addRepulsion p.forces i) items) p.items
  { p with items := items }

/-- Draws the items that reach beyond the range of gravity to the middle. -/
@[specialize] def gravitate (p : Placement K) : Placement K :=
  if Scalar.isFinite p.gravityReach && decide (0.0 < p.gravityReach) then
    match Extent.cover? (p.items.toList.map (·.box)) with
    | none => p
    | some e =>
      let center := e.center
      { p with items := p.items.map fun i =>
          let offset := i.box.center.sub center
          if p.gravityReach < Scalar.abs offset.x + i.box.halfWidth ∨
              p.gravityReach < Scalar.abs offset.y + i.box.halfHeight then
            { i with spring := i.spring.sub (offset.scale p.forces.gravity) }
          else i }
  else p

/-- Moves an item by its forces, unless they are undefined, and clears them. -/
@[specialize] def moveItem (factor limit : K) (state : Array (Placed K) × K) (i : Placed K) :
    Array (Placed K) × K :=
  let (items, total) := state
  let dx := clamp (factor * (i.spring.x + i.repulsion.x)) (-limit) limit
  let dy := clamp (factor * (i.spring.y + i.repulsion.y)) (-limit) limit
  let rest := { i with spring := .origin, repulsion := .origin }
  if Scalar.isFinite dx && Scalar.isFinite dy then
    (items.push { rest with box := rest.box.translate ⟨dx, dy⟩ },
      total + (Scalar.abs dx + Scalar.abs dy))
  else (items.push rest, total)

@[specialize] def move (p : Placement K) : Placement K :=
  let limit := p.cooling.factor * Drawing.maxDisplacement
  let (items, total) := p.items.foldl (moveItem p.cooling.factor limit) (#[], 0.0)
  { p with items := items, lastDisplacement := total }

/-- Looks after every cycle whether the placement has settled, and cools it if not. -/
@[specialize] def endCycle (p : Placement K) : Placement K :=
  if p.iteration % Cooling.period = 0 then
    let settled := Cooling.settled p.iteration p.maxIterations p.threshold p.lastDisplacement
      p.oldDisplacement
    { p with
      oldDisplacement := p.lastDisplacement
      done := settled
      cooling := if settled then p.cooling else p.cooling.advance }
  else p

@[specialize] def iterate (p : Placement K) : Placement K :=
  let p := { p with items := p.springs.foldl (addSpring p.forces) p.items }
  let p := if p.iteration % refreshPeriod = 1 then p.renewNear else p
  p.repel.gravitate.move

/-- One step of the placement, unless it is done. -/
@[specialize] def tick (p : Placement K) : Placement K :=
  if p.done then p
  else
    let p := { p with iteration := p.iteration + 1 }
    if p.maxIterations ≤ p.iteration then { p with done := true }
    else
      let p := p.endCycle
      if p.done then p else p.iterate

@[specialize] def ticks : Nat → Placement K → Placement K
  | 0, p => p
  | n + 1, p =>
    let p := p.tick
    if p.done then p else ticks n p

/-- The placement carried through; it is done at the latest when its iterations are used up. -/
@[specialize] def run (p : Placement K) : Placement K := p.begin.ticks (p.maxIterations + 1)

/-- Moves one root of a drawing to where it was placed, a ring with all its members. -/
@[specialize] def applyItem (d : Drawing K) (i : Placed K) : Drawing K :=
  let b := d.body i.root
  match b.role.hub? with
  | some c => d.translateRing c (i.box.center.sub b.center)
  | none => d.setCenter i.root i.box.center

@[specialize] def apply (p : Placement K) (d : Drawing K) : Drawing K := p.items.foldl applyItem d

end Placement

end RingLayout
