import RingLayout.Box.Extent
import RingLayout.Chord
import RingLayout.Graph

/-! # Drawings

A drawing holds a body for every drawn node and one more, the hub, for every ring. The members of
a ring sit on it in cyclic order or lie inside it; hubs and the bodies on no ring are the roots,
which move freely. Bodies without links and ring may be set aside to be tiled at the end.
-/

namespace RingLayout

/-- A place on a ring. -/
structure Seat (K : Type) where
  ring : Nat
  angle : K
  /-- The number of the place in the order of the ring. -/
  index : Nat
  innerLinks : List Nat
  outerLinks : List Nat
  swapsNext : Bool
  swapsPrevious : Bool
  /-- The pull along the ring gathered for the next round of exchanges. -/
  pull : K

inductive Role (K : Type) where
  | free
  | seated (seat : Seat K)
  | inside (ring : Nat)
  /-- The center of a ring. -/
  | hub (ring : Nat)

namespace Role

variable {K : Type}

@[inline] def ring? : Role K → Option Nat
  | .free => none
  | .seated s => some s.ring
  | .inside c => some c
  | .hub c => some c

@[inline] def seat? : Role K → Option (Seat K)
  | .seated s => some s
  | _ => none

@[inline] def hub? : Role K → Option Nat
  | .hub c => some c
  | _ => none

@[inline] def isInside : Role K → Bool
  | .inside _ => true
  | _ => false

@[inline] def mapSeat (f : Seat K → Seat K) : Role K → Role K
  | .seated s => .seated (f s)
  | r => r

end Role

structure Body (K : Type) where
  /-- The id of the node; hubs have none. -/
  id : Option String
  group : Option String
  box : Box K
  spring : Point K
  repulsion : Point K
  gravitation : Point K
  role : Role K

structure Link (K : Type) where
  source : Nat
  target : Nat
  /-- The ring that both ends belong to. -/
  ring : Option Nat
  idealLength : K

namespace Link

variable {K : Type}

@[inline] def other (l : Link K) (v : Nat) : Nat := if l.source = v then l.target else l.source

@[inline] def isInner (l : Link K) : Bool := l.ring.isSome

end Link

/-- A cluster drawn as a circle around its hub. -/
structure Ring (K : Type) where
  hub : Nat
  /-- The members on the ring, by growing angles. -/
  order : List Nat
  radius : K
  /-- The members inside the ring. -/
  inside : List Nat
  /-- The links between two members. -/
  innerLinks : List Nat
  /-- The links with one end among the members. -/
  outerLinks : List Nat
  /-- The order that the exchange rules were last worked out for. -/
  observedOrder : Option (List Nat)
  mayReverse : Bool

/-- The state of a layout. Bodies are numbered, the drawn nodes first and then the hubs. -/
structure Drawing (K : Type) where
  bodies : Array (Body K)
  links : Array (Link K)
  rings : Array (Ring K)
  /-- The linked bodies of every body, each with the link. -/
  adjacency : Array (List (Nat × Nat))
  nodeCount : Nat
  /-- The members on rings. -/
  seated : List Nat
  /-- The members inside rings. -/
  inside : List Nat
  /-- The bodies that move freely: hubs, and bodies on no ring that are not tiled. -/
  roots : List Nat
  tiled : List Nat
  /-- The ids of the groups whose bounds are reported. -/
  groups : List String

namespace Body

variable {K : Type} [Scalar K]

@[specialize] def atRest (id group : Option String) (box : Box K) (role : Role K) : Body K :=
  ⟨id, group, box, .origin, .origin, .origin, role⟩

/-- A body without size and part, which stands for a number that names no body. -/
@[specialize] def blank : Body K := atRest none none ⟨0.0, 0.0, 0.0, 0.0⟩ .free

@[inline] def center (b : Body K) : Point K := b.box.center

@[inline] def seat? (b : Body K) : Option (Seat K) := b.role.seat?

@[inline] def isSeated (b : Body K) : Bool := b.role.seat?.isSome

@[inline] def isHub (b : Body K) : Bool := b.role.hub?.isSome

@[inline] def setCenter (b : Body K) (p : Point K) : Body K := { b with box := b.box.recenter p }

@[inline] def translate (b : Body K) (d : Point K) : Body K := { b with box := b.box.translate d }

@[inline] def totalForce (b : Body K) : Point K :=
  ⟨b.spring.x + b.repulsion.x + b.gravitation.x, b.spring.y + b.repulsion.y + b.gravitation.y⟩

@[inline] def clearForces (b : Body K) : Body K :=
  { b with spring := .origin, repulsion := .origin, gravitation := .origin }

end Body

namespace Drawing

variable {K : Type} [Scalar K]

@[inline] def body (d : Drawing K) (v : Nat) : Body K := d.bodies.getD v Body.blank

/-- A ring without members, which stands for a number that names no ring. -/
@[specialize] def blankRing : Ring K := ⟨0, [], 0.0, [], [], [], none, false⟩

@[inline] def ring (d : Drawing K) (c : Nat) : Ring K := d.rings.getD c blankRing

@[specialize] def blankLink : Link K := ⟨0, 0, none, 0.0⟩

@[inline] def link (d : Drawing K) (e : Nat) : Link K := d.links.getD e blankLink

@[inline] def modifyBody (d : Drawing K) (v : Nat) (f : Body K → Body K) : Drawing K :=
  { d with bodies := d.bodies.modify v f }

/-- A change of one body is seen at its number and nowhere else. -/
theorem body_modifyBody (d : Drawing K) {v : Nat} (hv : v < d.bodies.size)
    (f : Body K → Body K) (u : Nat) :
    (d.modifyBody v f).body u = if u = v then f (d.body v) else d.body u := by
  simp only [modifyBody, body, Array.getD_eq_getD_getElem?, Array.getElem?_modify]
  by_cases h : u = v
  · subst h
    simp only [if_true, Array.getElem?_eq_getElem hv, Option.map_some, Option.getD_some]
  · simp only [h, Ne.symm h, if_false]

@[inline] def modifySeat (d : Drawing K) (v : Nat) (f : Seat K → Seat K) : Drawing K :=
  d.modifyBody v fun b => { b with role := b.role.mapSeat f }

@[inline] def modifyRing (d : Drawing K) (c : Nat) (f : Ring K → Ring K) : Drawing K :=
  { d with rings := d.rings.modify c f }

/-- A change of one ring is seen at its number and nowhere else. -/
theorem ring_modifyRing (d : Drawing K) {c : Nat} (hc : c < d.rings.size)
    (f : Ring K → Ring K) (b : Nat) :
    (d.modifyRing c f).ring b = if b = c then f (d.ring c) else d.ring b := by
  simp only [modifyRing, ring, Array.getD_eq_getD_getElem?, Array.getElem?_modify]
  by_cases h : b = c
  · subst h
    simp only [if_true, Array.getElem?_eq_getElem hc, Option.map_some, Option.getD_some]
  · simp only [h, Ne.symm h, if_false]

@[inline] def setCenter (d : Drawing K) (v : Nat) (p : Point K) : Drawing K :=
  d.modifyBody v (·.setCenter p)

@[inline] def translateBody (d : Drawing K) (v : Nat) (delta : Point K) : Drawing K :=
  d.modifyBody v (·.translate delta)

def ringNumbers (d : Drawing K) : List Nat := List.range d.rings.size

/-- The nodes that are not set aside. -/
def simulated (d : Drawing K) : List Nat :=
  (List.range d.nodeCount).filter fun v => !d.tiled.contains v

def nodeBoxes (d : Drawing K) : List (Box K) :=
  (d.bodies.toList.take d.nodeCount).map (·.box)

/-- Out-nodes sit on a ring and have a link that leaves it. -/
def isOutNode (d : Drawing K) (v : Nat) : Bool :=
  match (d.body v).seat? with
  | some s => !s.outerLinks.isEmpty
  | none => false

end Drawing

end RingLayout
