import RingLayout.CyclicOrder
import RingLayout.Drawing

/-! # Rings of a drawing

Every operation on a ring keeps its members at the places that their angles and the radius give
them around the hub.
-/

namespace RingLayout.Drawing

open Scalar

variable {K : Type} [Scalar K]

/-- The center of a ring is the center of its hub. -/
@[inline] def ringCenter (d : Drawing K) (c : Nat) : Point K := (d.body (d.ring c).hub).center

/-- The angle and the index of a body's seat. -/
@[inline] def seatOf (d : Drawing K) (v : Nat) : K × Nat :=
  match (d.body v).seat? with
  | some s => (s.angle, s.index)
  | none => (0.0, 0)

@[inline] def angleOf (d : Drawing K) (v : Nat) : K := (d.seatOf v).1

/-- Moves every member on a ring to the point of the circle at its angle. -/
@[specialize] def placeMembers (d : Drawing K) (c : Nat) : Drawing K :=
  let center := d.ringCenter c
  let radius := (d.ring c).radius
  (d.ring c).order.foldl
    (fun d v => d.setCenter v (Point.onCircle center radius (d.angleOf v))) d

/-- The longest diagonal among some bodies. -/
@[specialize] def longestDiagonal (d : Drawing K) (members : List Nat) : K :=
  (members.map fun v => (d.body v).box.diagonal).foldl maxNum 0.0

/-- Makes the hub a square around the circle and its members. -/
@[specialize] def fitHub (d : Drawing K) (c : Nat) : Drawing K :=
  let r := d.ring c
  let side := maxNum (2.0 * r.radius + d.longestDiagonal r.order) 1.0
  d.modifyBody r.hub fun b => { b with box := Box.centered b.center side side }

/-- Gives the members their angles in turn, the first of them at `angle`. Each step turns by half
the spans of the two members it passes between; `first` follows the last member. -/
@[specialize] def assignAngles (radius first : K) :
    Nat → K → List (Nat × K) → Drawing K → Drawing K
  | _, _, [], d => d
  | index, angle, (v, span) :: rest, d =>
    let d := d.modifySeat v fun s => { s with angle := normalizeAngle angle, index := index }
    let next := match rest with
      | (_, nextSpan) :: _ => nextSpan
      | [] => first
    let angle := if 0.0 < radius then angle + (span / 2.0 + next / 2.0) / radius else angle
    assignAngles radius first (index + 1) angle rest d

/-- Lays the members of a ring out anew: each takes an arc in proportion to its diagonal plus the
separation, and the radius is such that the arcs fill the circle. The first member keeps its
angle, and a single member sits at the center. -/
@[specialize] def spread (d : Drawing K) (c : Nat) (separation : K) : Drawing K :=
  match (d.ring c).order with
  | [] => d.modifyRing c fun r => { r with radius := 0.0 }
  | first :: rest =>
    let spans := (first :: rest).map fun v => (d.body v).box.diagonal + separation
    let radius := if rest.isEmpty then 0.0 else sum spans / turn
    let d := d.modifyRing c fun r => { r with radius := radius }
    let start := d.angleOf first
    let d := assignAngles radius (spans.headD 0.0) 0 start ((first :: rest).zip spans) d
    (d.fitHub c).placeMembers c

/-- Moves a ring with its hub and all its members. -/
@[specialize] def translateRing (d : Drawing K) (c : Nat) (delta : Point K) : Drawing K :=
  let r := d.ring c
  let d := d.translateBody r.hub delta
  let d := r.order.foldl (fun d v => d.translateBody v delta) d
  r.inside.foldl (fun d v => d.translateBody v delta) d

@[specialize] def rotateRing (d : Drawing K) (c : Nat) (angle : K) : Drawing K :=
  if angle == 0.0 then d
  else
    let d := (d.ring c).order.foldl
      (fun d v => d.modifySeat v fun s => { s with angle := normalizeAngle (s.angle + angle) }) d
    d.placeMembers c

/-- Exchanges the seats, that is index and angle, of the member at an index and the next one. -/
@[specialize] def swapWithNext (d : Drawing K) (c i : Nat) : Drawing K :=
  let order := (d.ring c).order
  let j := CyclicOrder.next order i
  match order[i]?, order[j]? with
  | some u, some v =>
    if i = j then d
    else
      let (angleU, indexU) := d.seatOf u
      let (angleV, indexV) := d.seatOf v
      let d := d.modifySeat u fun s => { s with angle := angleV, index := indexV }
      let d := d.modifySeat v fun s => { s with angle := angleU, index := indexU }
      let d := d.modifyRing c fun r => { r with order := CyclicOrder.exchange r.order i j }
      d.placeMembers c
  | _, _ => d

/-- Numbers the members of an order from an index on. -/
@[specialize] def renumber (d : Drawing K) (start : Nat) (order : List Nat) : Drawing K :=
  (order.zipIdx start).foldl
    (fun d (v, i) => d.modifySeat v fun s => { s with index := i }) d

/-- Mirrors a ring across the line through its center and its first member, which reverses its
direction. Rings of fewer than three members stay as they are. -/
@[specialize] def reverseRing (d : Drawing K) (c : Nat) : Drawing K :=
  match (d.ring c).order with
  | first :: second :: third :: rest =>
    let axis := d.angleOf first
    let order := CyclicOrder.reverse (first :: second :: third :: rest)
    let d := order.foldl
      (fun d v => d.modifySeat v fun s =>
        { s with angle := normalizeAngle (2.0 * axis - s.angle) }) d
    let d := d.renumber 0 order
    let d := d.modifyRing c fun r => { r with order := order }
    d.placeMembers c
  | _ => d

@[specialize] def chords (d : Drawing K) (c : Nat) : List Chord :=
  (d.ring c).innerLinks.filterMap fun e =>
    let l := d.link e
    match (d.body l.source).seat?, (d.body l.target).seat? with
    | some a, some b => some (a.index, b.index)
    | _, _ => none

@[specialize] def crossingCount (d : Drawing K) (c : Nat) : Nat := Chord.crossings (d.chords c)

/-- Remembers the current order of a ring for the exchange rules. -/
@[specialize] def observeOrder (d : Drawing K) (c : Nat) : Drawing K :=
  d.modifyRing c fun r => { r with observedOrder := some r.order }

/-- Takes a member off its ring and puts it inside; the members after it move up by one index. -/
@[specialize] def moveInside (d : Drawing K) (c v : Nat) : Drawing K :=
  let order := (d.ring c).order
  match order.idxOf? v with
  | none => d
  | some i =>
    let order := order.eraseIdx i
    let d := d.renumber i (order.drop i)
    let d := d.modifyRing c fun r => { r with order := order, inside := r.inside ++ [v] }
    let d := d.modifyBody v fun b => { b with role := .inside c }
    { d with seated := d.seated.erase v, inside := d.inside ++ [v] }

end RingLayout.Drawing
