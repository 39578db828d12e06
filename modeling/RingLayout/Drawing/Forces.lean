import RingLayout.Box.Force
import RingLayout.Drawing.Quotient
import RingLayout.Drawing.Rings
import RingLayout.Options

/-! # Gathering forces

Springs act along links, repulsion between roots and around members inside rings, and gravity
draws stray roots to the middle of the drawing and inside members to the center of their ring.
-/

namespace RingLayout

open Scalar

structure ForceSettings (K : Type) where
  elasticity : K
  repulsion : K
  gravity : K
  /-- The multiple of the estimated size of the drawing beyond which gravity acts. -/
  gravityRange : K
  minGap : K
  buffer : K

namespace ForceSettings

variable {K : Type} [Scalar K]

@[specialize] def ofOptions (o : Options K) : ForceSettings K :=
  let ideal := o.effectiveEdgeLength
  { elasticity := o.effectiveSpring
    repulsion := o.effectiveRepulsion
    gravity := o.effectiveGravity
    gravityRange := o.effectiveGravityRange
    minGap := maxNum (ideal / 10.0) 0.0005
    buffer := ideal / 2.0 }

end ForceSettings

namespace Drawing

variable {K : Type} [Scalar K]

/-- The ideal length of links to members inside a ring. -/
def insideLength : K := 10.0

@[specialize] def idealLengthOf (d : Drawing K) (o : Options K) (factor : K) (l : Link K) : K :=
  let a := (d.body l.source).role
  let b := (d.body l.target).role
  if a.isInside || b.isInside then insideLength
  else if (a.ring?.isSome || b.ring?.isSome) && !l.isInner then o.interClusterLength * factor
  else o.effectiveEdgeLength * factor

/-- Gives every link its ideal length; all but those to inside members are stretched by the
factor. -/
@[specialize] def assignIdealLengths (d : Drawing K) (o : Options K) (factor : K) : Drawing K :=
  { d with links := d.links.map fun l => { l with idealLength := d.idealLengthOf o factor l } }

/-- The pull of the spring of a link. Between two seated members of one ring there is none. -/
@[specialize] def addSpring (s : ForceSettings K) (bodies : Array (Body K)) (l : Link K) :
    Array (Body K) :=
  let a := bodies.getD l.source Body.blank
  let b := bodies.getD l.target Body.blank
  if l.isInner && a.isSeated && b.isSeated then bodies
  else
    let f := Box.springForce a.box b.box l.idealLength s.elasticity
    (bodies.modify l.source fun b => { b with spring := b.spring.add f }).modify l.target
      fun b => { b with spring := b.spring.sub f }

@[specialize] def addRepulsion (s : ForceSettings K) (a : Nat) (bodies : Array (Body K))
    (b : Nat) : Array (Body K) :=
  let f := Box.repulsionForce (bodies.getD a Body.blank).box (bodies.getD b Body.blank).box
    s.repulsion s.minGap s.buffer
  (bodies.modify a fun b => { b with repulsion := b.repulsion.add f }).modify b
    fun b => { b with repulsion := b.repulsion.sub f }

/-- The pushes of every listed body on the later ones of the list and on those of `others`,
which come first. -/
@[specialize] def addRepulsions (s : ForceSettings K) (others : List Nat) :
    List Nat → Array (Body K) → Array (Body K)
  | [], bodies => bodies
  | a :: rest, bodies =>
    addRepulsions s others rest
      (rest.foldl (addRepulsion s a) (others.foldl (addRepulsion s a) bodies))

/-- Roots repel each other, and inside members repel each other and the members on their ring. -/
@[specialize] def repel (s : ForceSettings K) (d : Drawing K) : Array (Body K) :=
  d.rings.foldl (fun bodies r => addRepulsions s r.order r.inside bodies)
    (addRepulsions s [] d.roots d.bodies)

/-- The side of a square with about the area of the boxes of some bodies. -/
@[specialize] def estimatedSize (boxes : List (Box K)) : K :=
  if boxes.isEmpty then 0.0
  else maxNum (sum (boxes.map (·.meanSide)) / sqrt (boxes.length : K)) 1.0

@[inline] def gravitate (s : ForceSettings K) (center : Point K) (b : Body K) : Body K :=
  let offset := b.center.sub center
  { b with gravitation := ⟨-s.gravity * offset.x, -s.gravity * offset.y⟩ }

/-- Draws the roots that reach out of the range around the middle of all roots back to it. -/
@[specialize] def gravitateRoots (s : ForceSettings K) (d : Drawing K) : Drawing K :=
  let boxes := d.roots.map fun v => (d.body v).box
  let range := estimatedSize boxes * s.gravityRange
  match d.boundsCenter? d.roots with
  | none => d
  | some center =>
    d.roots.foldl
      (fun d v => d.modifyBody v fun b =>
        let offset := b.center.sub center
        if range < Scalar.abs offset.x + b.box.halfWidth ∨
            range < Scalar.abs offset.y + b.box.halfHeight then
          gravitate s center b
        else b) d

/-- Draws the inside members of a ring to its center. -/
@[specialize] def gravitateInside (s : ForceSettings K) (d : Drawing K) (c : Nat) : Drawing K :=
  let center := d.ringCenter c
  (d.ring c).inside.foldl (fun d v => d.modifyBody v (gravitate s center)) d

/-- Adds the forces of one iteration. Where links connect all roots, they need no gravity. -/
@[specialize] def gatherForces (s : ForceSettings K) (connected : Bool) (d : Drawing K) :
    Drawing K :=
  let d := { d with bodies := d.links.foldl (addSpring s) d.bodies }
  let d := { d with bodies := repel s d }
  let d := if connected then d else gravitateRoots s d
  d.ringNumbers.foldl (gravitateInside s) d

end Drawing

end RingLayout
