import RingLayout.Drawing.Motion

/-! # Moving members inside

A member without outer links whose chords cross others moves inside its ring, provided that its
neighbours on the ring stand together once it is gone.
-/

namespace RingLayout.Drawing

open Scalar

variable {K : Type} [Scalar K]

@[specialize] def seatedNeighbors (d : Drawing K) (v : Nat) : List Nat :=
  match (d.body v).seat? with
  | some s => (s.innerLinks.map fun e => (d.link e).other v).filter fun u => (d.body u).isSeated
  | none => []

/-- Whether a chord at an index crosses another chord. -/
def tangledAt (chords : List Chord) (i : Nat) : Bool :=
  chords.any fun p => (p.1 == i || p.2 == i) && chords.any (Chord.crosses p)

@[specialize] def canMoveInside (d : Drawing K) (c : Nat) (chords : List Chord) (v : Nat) : Bool :=
  match (d.body v).seat? with
  | some s =>
    let neighbors := d.seatedNeighbors v
    s.outerLinks.isEmpty && !neighbors.isEmpty && tangledAt chords s.index &&
      decide (CyclicOrder.neighborRuns (d.ring c).order v neighbors ≤ 1)
  | none => false

@[specialize] def firstToMoveInside? (d : Drawing K) (c : Nat) : Option Nat :=
  (d.ring c).order.find? (d.canMoveInside c (d.chords c))

/-- The mean of the centers of some bodies, added up in order. -/
@[specialize] def centroid (d : Drawing K) (members : List Nat) : Point K :=
  let total := members.foldl (fun acc v => acc.add (d.body v).center) (.origin : Point K)
  let k : K := (members.length : K)
  ⟨total.x / k, total.y / k⟩

/-- Halfway from the center of a ring to the centroid of a member's neighbours. -/
@[specialize] def insideTarget (d : Drawing K) (c v : Nat) : Point K :=
  let center := d.ringCenter c
  let neighbors := d.seatedNeighbors v
  if neighbors.isEmpty then center
  else
    let middle := d.centroid neighbors
    ⟨center.x + 0.5 * (middle.x - center.x), center.y + 0.5 * (middle.y - center.y)⟩

/-- Moves up to `budget` members of a ring inside, leaving at least three on it. Gives their
number. -/
@[specialize] def moveMembersInside (c : Nat) : Nat → Drawing K → Nat × Drawing K
  | 0, d => (0, d)
  | budget + 1, d =>
    if 3 < (d.ring c).order.length then
      match d.firstToMoveInside? c with
      | none => (0, d)
      | some v =>
        let target := d.insideTarget c v
        let (moved, d) := moveMembersInside c budget ((d.moveInside c v).setCenter v target)
        (moved + 1, d)
    else (0, d)

/-- Moves members of one ring inside, at most the given share of them, and lays the others out
anew. -/
@[specialize] def relocateOnRing (share separation : K) (state : Nat × Drawing K) (c : Nat) :
    Nat × Drawing K :=
  let (total, d) := state
  let budget := floorNat (((d.ring c).order.length : K) * share)
  let (moved, d) := moveMembersInside c budget d
  if moved = 0 then (total, d)
  else
    let d := d.spread c separation
    let center := d.ringCenter c
    let radius := (d.ring c).radius
    let d := (d.ring c).inside.foldl (fun d v => d.keepInside v center radius) d
    (total + moved, d)

/-- Moves members inside on every ring. Gives their number. -/
@[specialize] def relocateInside (d : Drawing K) (share separation : K) : Nat × Drawing K :=
  d.ringNumbers.foldl (relocateOnRing share separation) (0, d)

end RingLayout.Drawing
