import RingLayout.Adjacency

/-! # Connecting a graph

Distances between all nodes exist only in a connected graph. A graph of several components gets
one more node, joined to the member of lowest degree of every component.
-/

namespace RingLayout.Adjacency

/-- Every list of neighbours in ascending order, without repetitions. -/
def tidy (adj : Adjacency) : Adjacency := adj.map fun vs => vs.mergeSort.eraseDups

/-- The simple graph on `n` indices with the given pairs; loops and pairs out of range are left
out. -/
def simple (n : Nat) (pairs : List (Nat × Nat)) : Adjacency :=
  (ofPairs n (pairs.filter fun (a, b) => decide (a < n) && decide (b < n) && a != b)).tidy

/-- The members through which the components are joined, one for each. -/
def representatives (adj : Adjacency) : List Nat :=
  adj.components.filterMap fun
    | [] => none
    | v :: vs => some (adj.lowestDegree v vs)

/-- A connected graph that holds the simple graph of the pairs; it has a node more if that graph
is not connected. -/
def connected (n : Nat) (pairs : List (Nat × Nat)) : Adjacency :=
  let adj := simple n pairs
  let joined := adj.representatives
  if joined.length ≤ 1 then adj
  else tidy ((joined.foldl (fun a v => a.modify v (· ++ [n])) adj).push joined)

end RingLayout.Adjacency
