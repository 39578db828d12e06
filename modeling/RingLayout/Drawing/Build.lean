import RingLayout.Drawing
import RingLayout.Options

/-! # Building a drawing

A drawing is built from a valid graph and a clustering. Links join distinct drawn nodes, one for
each pair, in the order in which the edges name the pairs first. The errors of the graph come
before those of the clustering, and the cells are read in order.
-/

namespace RingLayout.Drawing

open Scalar

variable {K : Type}

def indexOf? (ids : List String) (id : String) : Option Nat := ids.idxOf? id

/-- The members of a cell among those read before it and in it: an id already in the cell is
skipped, and so is a group. `owners` gives the cell of every member read so far. -/
def readCell (g : Graph K) (ids : List String) (cell : Nat) :
    List String → List (Nat × Nat) → Except GraphError (List Nat × List (Nat × Nat))
  | [], owners => .ok ([], owners)
  | id :: rest, owners =>
    match indexOf? ids id with
    | none =>
      if (g.node? id).any (·.isGroup) then readCell g ids cell rest owners
      else .error (.unknownMember cell id)
    | some v =>
      match owners.lookup v with
      | some first =>
        if first = cell then readCell g ids cell rest owners
        else .error (.overlappingCells id first cell)
      | none => do
        let (members, owners) ← readCell g ids cell rest ((v, cell) :: owners)
        return (v :: members, owners)

/-- The members of all cells from the given one on; cells without members are dropped. -/
def readCells (g : Graph K) (ids : List String) (cell : Nat) :
    List (List String) → List (Nat × Nat) → Except GraphError (List (List Nat))
  | [], _ => .ok []
  | c :: cs, owners => do
    let (members, owners) ← readCell g ids cell c owners
    let later ← readCells g ids (cell + 1) cs owners
    return if members.isEmpty then later else members :: later

/-- Adds a member to the group of a number, or begins one. -/
def addTo (number : Int) (v : Nat) : List (Int × List Nat) → List (Int × List Nat)
  | [] => [(number, [v])]
  | (n, members) :: rest =>
    if n = number then (n, members ++ [v]) :: rest else (n, members) :: addTo number v rest

/-- The drawn nodes grouped by their numbers, by the first member of each group. -/
def classGroups (numbers : List (Option Int)) : List (List Nat) :=
  let groups := numbers.zipIdx.foldl
    (fun groups (number, v) =>
      match number with
      | some n => if 0 ≤ n then addTo n v groups else groups
      | none => groups) []
  groups.map (·.2)

def clusters (g : Graph K) : Clustering K → Except GraphError (List (List Nat))
  | .none => .ok []
  | .cells cells => readCells g (g.drawnNodes.map (·.id)) 0 cells []
  | .classify number => .ok (classGroups (g.drawnNodes.map number))

def clusterOf? (clusters : List (List Nat)) (v : Nat) : Option Nat :=
  clusters.findIdx? (·.contains v)

/-- The linked pairs: the first edge of every pair of distinct drawn nodes, in edge order. -/
def linkPairs (ids : List String) (seen : List (Nat × Nat)) : List Edge → List (Nat × Nat)
  | [] => []
  | e :: es =>
    match indexOf? ids e.source, indexOf? ids e.target with
    | some a, some b =>
      if a = b ∨ (a, b) ∈ seen ∨ (b, a) ∈ seen then linkPairs ids seen es
      else (a, b) :: linkPairs ids ((a, b) :: seen) es
    | _, _ => linkPairs ids seen es

def commonRing? (clusters : List (List Nat)) (a b : Nat) : Option Nat :=
  match clusterOf? clusters a, clusterOf? clusters b with
  | some c, some c' => if c = c' then some c else none
  | _, _ => none

def adjacencyOf (bodies : Nat) (pairs : List (Nat × Nat)) : Array (List (Nat × Nat)) :=
  pairs.zipIdx.foldl
    (fun adj ((a, b), e) => (adj.modify a (· ++ [(b, e)])).modify b (· ++ [(a, e)]))
    (Array.replicate bodies [])

variable [Scalar K]

/-- The body of a drawn node: sides of less than 1 count as 1, and a node without position starts
at the origin. -/
def nodeBody (n : Node K) (role : Role K) : Body K :=
  Body.atRest (some n.id) n.group
    (Box.centered (n.position.getD .origin) (maxNum n.width 1.0) (maxNum n.height 1.0)) role

def linksWhere (links : List (Link K)) (test : Link K → Bool) : List Nat :=
  (links.zipIdx.filter fun (l, _) => test l).map (·.2)

/-- The role of a drawn node, given the links. -/
def roleOf (clusters : List (List Nat)) (links : List (Link K)) (v : Nat) : Role K :=
  match clusterOf? clusters v with
  | none => .free
  | some c =>
    let touches (l : Link K) : Bool := l.source == v || l.target == v
    .seated
      { ring := c
        angle := 0.0
        index := (clusters.getD c []).idxOf v
        innerLinks := linksWhere links fun l => touches l && l.isInner
        outerLinks := linksWhere links fun l => touches l && !l.isInner
        swapsNext := true
        swapsPrevious := true
        pull := 0.0 }

/-- The ring of a cluster. It may be reversed if at least two links leave it. -/
def ringOf (members : List Nat) (hub c : Nat) (links : List (Link K)) : Ring K :=
  let outer := linksWhere links fun l =>
    !l.isInner && (members.contains l.source || members.contains l.target)
  { hub := hub
    order := members
    radius := 0.0
    inside := []
    innerLinks := linksWhere links fun l => l.ring == some c
    outerLinks := outer
    observedOrder := none
    mayReverse := decide (2 ≤ outer.length) }

/-- The drawing of a valid graph with the given clusters. -/
def ofClusters (g : Graph K) (o : Options K) (clusters : List (List Nat)) : Drawing K :=
  let nodes := g.drawnNodes
  let n := nodes.length
  let pairs := linkPairs (nodes.map (·.id)) [] g.edges
  let links := pairs.map fun (a, b) =>
    (⟨a, b, commonRing? clusters a b, o.effectiveEdgeLength⟩ : Link K)
  let adjacency := adjacencyOf (n + clusters.length) pairs
  let hubs := clusters.zipIdx.map fun (_, c) =>
    Body.atRest none none (Box.centered .origin 1.0 1.0) (.hub c)
  let loose := (List.range n).filter fun v => (clusterOf? clusters v).isNone
  let setAside (v : Nat) : Bool := o.tile && (adjacency.getD v []).isEmpty
  { bodies := (nodes.zipIdx.map fun (m, v) => nodeBody m (roleOf clusters links v)).toArray
      ++ hubs.toArray
    links := links.toArray
    rings := (clusters.zipIdx.map fun (members, c) => ringOf members (n + c) c links).toArray
    adjacency := adjacency
    nodeCount := n
    seated := clusters.flatten
    inside := []
    roots := (clusters.zipIdx.map fun (_, c) => n + c) ++ loose.filter (!setAside ·)
    tiled := loose.filter setAside
    groups := g.groupIds }

def build (g : Graph K) (o : Options K) : Except GraphError (Drawing K) := do
  g.validate
  return ofClusters g o (← clusters g o.clustering)

end RingLayout.Drawing
