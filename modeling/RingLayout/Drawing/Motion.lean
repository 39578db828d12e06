import RingLayout.Drawing.Forces

/-! # Moving by forces

Free roots move by their forces. A ring moves rigidly: the forces on it and its members split into
shifting and turning the whole. Members inside a ring move by their own forces and stay inside.
-/

namespace RingLayout.Drawing

open Scalar

variable {K : Type} [Scalar K]

/-- The furthest that a body moves along an axis at full temperature. -/
def maxDisplacement : K := 100.0

/-- The share of the radius that members inside a ring keep to. -/
def insideShare : K := 0.9

/-- A displacement kept within a limit; an undefined or infinite one becomes 0. -/
@[inline] def limited (x limit : K) : K :=
  if Scalar.isFinite x then clamp x (-limit) limit else 0.0

@[inline] def displacement (cooling limit : K) (force : Point K) : Point K :=
  ⟨limited (cooling * force.x) limit, limited (cooling * force.y) limit⟩

@[inline] def travel (delta : Point K) : K := Scalar.abs delta.x + Scalar.abs delta.y

/-- Draws a member inside a ring back to where its box keeps clear of the circle. -/
@[specialize] def keepInside (d : Drawing K) (v : Nat) (center : Point K) (radius : K) :
    Drawing K :=
  let b := d.body v
  let limit := maxNum (insideShare * radius - b.box.diagonal / 2.0) 0.0
  let offset := b.center.sub center
  let dist := offset.norm
  if limit < dist then
    let share := if 0.0 < dist then limit / dist else 0.0
    d.setCenter v (center.add (offset.scale share))
  else d

/-- Moves a free root by its forces. The total of all displacements is carried along. -/
@[specialize] def moveRoot (cooling limit : K) (state : Drawing K × K) (v : Nat) :
    Drawing K × K :=
  let (d, total) := state
  let b := d.body v
  if b.isHub then (d, total)
  else
    let delta := displacement cooling limit b.totalForce
    (d.translateBody v delta, total + travel delta)

/-- Moves the inside members of a ring by their forces and keeps them inside. -/
@[specialize] def moveInsideMember (cooling limit : K) (center : Point K) (radius : K)
    (state : Drawing K × K) (v : Nat) : Drawing K × K :=
  let (d, total) := state
  let delta := displacement cooling limit (d.body v).totalForce
  ((d.translateBody v delta).keepInside v center radius, total + travel delta)

/-- The pulls of the members of a ring along it, and the sum of all other forces on the ring. -/
@[specialize] def splitForces (d : Drawing K) (c : Nat) : List K × Point K :=
  let center := d.ringCenter c
  let r := d.ring c
  let split := r.order.map fun v =>
    let b := d.body v
    Point.alongCircle center b.center b.totalForce
  (split.map (·.1), split.foldl (fun acc p => acc.add p.2) (d.body r.hub).totalForce)

/-- Moves a ring: it shifts by the forces that do not turn it and turns by the mean pull along it.
With `gather`, the members also add their cooled pulls up for the next exchanges. -/
@[specialize] def moveRing (cooling limit : K) (gather : Bool) (state : Drawing K × K) (c : Nat) :
    Drawing K × K :=
  let (d, total) := state
  let r := d.ring c
  let n := r.order.length
  let (pulls, force) := d.splitForces c
  let delta := displacement cooling limit force
  let meanPull := if 0 < n then sum pulls / (n : K) else 0.0
  let arc := limited (cooling * meanPull) limit
  let angle := if decide (0.0 < r.radius) && decide (1 < n) then arc / r.radius else 0.0
  let d :=
    if gather then
      (r.order.zip pulls).foldl
        (fun d (v, pull) => d.modifySeat v fun s => { s with pull := s.pull + cooling * pull }) d
    else d
  let d := (d.translateRing c delta).rotateRing c angle
  let moved := (max n 1 : Nat) * travel delta + (n : K) * Scalar.abs (angle * r.radius)
  let (d, moved) :=
    r.inside.foldl (moveInsideMember cooling limit (d.ringCenter c) r.radius) (d, moved)
  (d, total + moved)

/-- Moves all roots and rings by the forces gathered and clears the forces. Gives the total
displacement too. -/
@[specialize] def move (cooling : K) (gather : Bool) (d : Drawing K) : Drawing K × K :=
  let limit := cooling * maxDisplacement
  let state := d.roots.foldl (moveRoot cooling limit) (d, 0.0)
  let (d, total) := d.ringNumbers.foldl (moveRing cooling limit gather) state
  ({ d with bodies := d.bodies.map (·.clearForces) }, total)

end RingLayout.Drawing
