import RingLayout.Adjacency
import RingLayout.Chord

/-! # Arranging the members of a ring

The members are ordered by a depth-first walk that always goes on to the neighbour of lowest
degree, so that neighbours tend to sit side by side. Afterwards single members move to the slot
where their chords cross the fewest others.
-/

namespace RingLayout.Arrangement

open Adjacency

/-- Whether `u` comes before `v` by degree and then by index. -/
def before (adj : Adjacency) (u v : Nat) : Bool :=
  decide (adj.degree u < adj.degree v) || adj.degree u == adj.degree v && decide (u ≤ v)

/-- The unplaced neighbours of a member, the one to visit first in front. -/
def successors (adj : Adjacency) (placed : List Nat) (v : Nat) : List Nat :=
  (((adj.neighbors v).filter fun u => !placed.contains u).mergeSort (before adj)).eraseDups

/-- The unplaced index that comes first by degree and index. -/
def nextStart? (adj : Adjacency) (placed : List Nat) : Option Nat :=
  match (List.range adj.size).filter fun u => !placed.contains u with
  | [] => none
  | v :: vs => some (adj.lowestDegree v vs)

/-- Places up to `left` more members. The stack holds the members seen but not placed, the latest
in front, and `placed` the members placed so far, the last one in front. -/
def walk (adj : Adjacency) : Nat → List Nat → List Nat → List Nat
  | 0, placed, _ => placed.reverse
  | left + 1, placed, stack =>
    match stack.dropWhile placed.contains with
    | v :: stack => walk adj left (v :: placed) (successors adj (v :: placed) v ++ stack)
    | [] =>
      match nextStart? adj placed with
      | some v => walk adj left (v :: placed) (successors adj (v :: placed) v)
      | none => placed.reverse

def walkOrder (adj : Adjacency) : List Nat := walk adj adj.size [] []

def slots (order : List Nat) : Array Nat :=
  order.zipIdx.foldl (fun slot (v, i) => slot.setIfInBounds v i) (Array.replicate order.length 0)

/-- The chord of an edge when every member sits at its slot. -/
@[inline] def chord (slot : Array Nat) (edge : Nat × Nat) : Chord :=
  (slot.getD edge.1 0, slot.getD edge.2 0)

/-- The number of crossings between an edge at `v` and an edge not at `v`. -/
def crossingsOf (order : List Nat) (edges : List (Nat × Nat)) (v : Nat) : Nat :=
  let slot := slots order
  let (own, others) := edges.partition fun e => e.1 == v || e.2 == v
  let others := others.map (chord slot)
  own.foldr (fun e n => others.countP (Chord.crosses (chord slot e)) + n) 0

def totalCrossings (order : List Nat) (edges : List (Nat × Nat)) : Nat :=
  Chord.crossings (edges.map (chord (slots order)))

/-- The best of the listed slots for a member taken out of its order, where one is better than
`bound` crossings; the first slot wins among equals. -/
def bestSlot? (rest : List Nat) (edges : List (Nat × Nat)) (v bound : Nat) :
    List Nat → Option Nat
  | [] => none
  | slot :: slots =>
    let crossings := crossingsOf (rest.insertIdx slot v) edges v
    if crossings < bound then
      match bestSlot? rest edges v crossings slots with
      | some better => some better
      | none => some slot
    else bestSlot? rest edges v bound slots

/-- Moves one member to the slot where its chords cross the fewest others, if that helps. -/
def improve (edges : List (Nat × Nat)) (order : List Nat) (v : Nat) : List Nat :=
  if order.contains v then
    let current := crossingsOf order edges v
    let position := order.idxOf v
    let rest := order.eraseIdx position
    let others := (List.range order.length).filter (· ≠ position)
    if current = 0 then order
    else
      match bestSlot? rest edges v current others with
      | some slot => rest.insertIdx slot v
      | none => order
  else order

/-- Improves every member once, in index order, and goes on until a pass changes nothing or the
passes are used up. -/
def improvePasses (edges : List (Nat × Nat)) : Nat → List Nat → List Nat
  | 0, order => order
  | passes + 1, order =>
    let next := (List.range order.length).foldl (improve edges) order
    if next = order then order else improvePasses edges passes next

def endsAt (edges : List (Nat × Nat)) (v : Nat) : Nat :=
  (edges.map (·.1)).count v + (edges.map (·.2)).count v

/-- The work of a pass that refinement is worth. -/
def workBudget : Nat := 50000000

/-- Lowers the crossings of an order by moving single members. Orders with nothing to gain, and
those beyond the work budget, stay as they are. -/
def refine (order : List Nat) (edges : List (Nat × Nat)) (passes : Nat) : List Nat :=
  let n := order.length
  let maxDegree := ((List.range n).map (endsAt edges)).foldl max 0
  if n < 4 || edges.length < 2 || workBudget < n * maxDegree * edges.length then order
  else improvePasses edges passes order

/-- The order of members joined by edges: the walk, refined in one pass for more than 64 members
and in up to five otherwise. -/
def arrange (members : Nat) (edges : List (Nat × Nat)) : List Nat :=
  refine (walkOrder (ofPairs members edges)) edges (if 64 < members then 1 else 5)

end RingLayout.Arrangement
