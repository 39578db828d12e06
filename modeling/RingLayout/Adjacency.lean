/-! # Hop distances and components

Graphs on the indices `0, …, n - 1`, given by the list of neighbours of every index. A search
settles one layer of indices after the other; a layer holds the unsettled neighbours of the layer
before it.
-/

namespace RingLayout

/-- The neighbours of every index, with repetitions and loops allowed. -/
abbrev Adjacency := Array (List Nat)

namespace Adjacency

/-- The neighbours of an index; an index out of range has none. -/
def neighbors (adj : Adjacency) (v : Nat) : List Nat := adj.getD v []

def degree (adj : Adjacency) (v : Nat) : Nat := (adj.neighbors v).length

/-- The first member of lowest degree, given the best one so far. -/
def lowestDegree (adj : Adjacency) (best : Nat) : List Nat → Nat
  | [] => best
  | v :: vs =>
    if adj.degree v < adj.degree best ∨ adj.degree v = adj.degree best ∧ v < best then
      lowestDegree adj v vs
    else lowestDegree adj best vs

/-- Gives a distance to every index of a list that has none yet. The settled indices come back
beside the new distances. -/
def settle (hops : Nat) : List Nat → Array (Option Nat) → List Nat × Array (Option Nat)
  | [], dist => ([], dist)
  | v :: vs, dist =>
    if dist[v]? = some none then
      let (settled, dist) := settle hops vs (dist.setIfInBounds v (some hops))
      (v :: settled, dist)
    else settle hops vs dist

/-- Searches on from a layer at the given distance, for at most `layers` layers. Everything
settled on the way comes back beside the distances. -/
def search (adj : Adjacency) (layers hops : Nat) (layer : List Nat)
    (dist : Array (Option Nat)) : List Nat × Array (Option Nat) :=
  match layers with
  | 0 => ([], dist)
  | layers + 1 =>
    let (next, dist) := settle (hops + 1) (layer.flatMap adj.neighbors) dist
    if next.isEmpty then ([], dist)
    else
      let (later, dist) := search adj layers (hops + 1) next dist
      (next ++ later, dist)

/-- Searches everything that can be reached from `start` through unsettled indices. No search has
more layers than there are indices. -/
def searchFrom (adj : Adjacency) (start : Nat) (dist : Array (Option Nat)) :
    List Nat × Array (Option Nat) :=
  let (first, dist) := settle 0 [start] dist
  let (later, dist) := search adj adj.size 0 first dist
  (first ++ later, dist)

/-- The least number of hops from `start` to every index, `none` where no path leads. -/
def hopsFrom (adj : Adjacency) (start : Nat) : Array (Option Nat) :=
  (searchFrom adj start (Array.replicate adj.size none)).2

/-- The components among the starts of a list, each sorted; settled starts are skipped. -/
def componentsAmong (adj : Adjacency) : List Nat → Array (Option Nat) → List (List Nat)
  | [], _ => []
  | start :: starts, dist =>
    let (found, dist) := searchFrom adj start dist
    if found.isEmpty then componentsAmong adj starts dist
    else found.mergeSort :: componentsAmong adj starts dist

/-- The connected components, each in ascending order, by their smallest members. -/
def components (adj : Adjacency) : List (List Nat) :=
  componentsAmong adj (List.range adj.size) (Array.replicate adj.size none)

/-- The adjacency of `n` indices joined by the given pairs, one neighbour per pair and end. Pairs
out of range join nothing. -/
def ofPairs (n : Nat) (pairs : List (Nat × Nat)) : Adjacency :=
  pairs.foldl
    (fun adj (a, b) => (adj.modify a (· ++ [b])).modify b (· ++ [a]))
    (Array.replicate n [])

end Adjacency

end RingLayout
