import RingLayout.Box

/-! # Graphs to be drawn

Nodes have a size and may have a position and a group. A node that is a group itself is not drawn;
its bounds are reported instead. A graph is valid when its node ids are distinct and every edge
joins two of its nodes.
-/

namespace RingLayout

structure Node (K : Type) where
  id : String
  width : K
  height : K
  /-- The center to start from, where the caller gives one. -/
  position : Option (Point K) := none
  group : Option String := none
  /-- Whether the node is itself a group, of which only the bounds are reported. -/
  isGroup : Bool := false

/-- An edge of the input, by the ids of its ends. -/
structure Edge where
  id : String
  source : String
  target : String

structure Graph (K : Type) where
  nodes : List (Node K)
  edges : List Edge

/-- What makes a graph, or a clustering of it, unfit for a layout. -/
inductive GraphError where
  /-- An end of the edge is no node. -/
  | missingEndpoint (edge : String)
  | duplicateNode (node : String)
  /-- A cell lists an id that is no node. -/
  | unknownMember (cell : Nat) (node : String)
  | overlappingCells (node : String) (first second : Nat)
deriving Repr, DecidableEq

def GraphError.message : GraphError → String
  | .missingEndpoint edge => "graph contains an edge with a missing endpoint: " ++ edge
  | .duplicateNode node => "graph contains the node id more than once: " ++ node
  | .unknownMember cell node =>
    "cluster " ++ toString cell ++ " references an unknown node: " ++ node
  | .overlappingCells node first second =>
    "node " ++ node ++ " is assigned to clusters " ++ toString first ++ " and " ++ toString second

namespace Graph

variable {K : Type}

def node? (g : Graph K) (id : String) : Option (Node K) := g.nodes.find? (·.id == id)

/-- The first id of a list that occurred before, given those already seen. -/
def firstRepeated? (seen : List String) : List String → Option String
  | [] => none
  | id :: ids => if seen.contains id then some id else firstRepeated? (id :: seen) ids

def joinsNodes (g : Graph K) (e : Edge) : Bool :=
  (g.node? e.source).isSome && (g.node? e.target).isSome

/-- A repeated node id is reported before a missing end, and the first of each kind counts. -/
def validate (g : Graph K) : Except GraphError Unit :=
  match firstRepeated? [] (g.nodes.map (·.id)) with
  | some id => .error (.duplicateNode id)
  | none =>
    match g.edges.find? (fun e => !g.joinsNodes e) with
    | some e => .error (.missingEndpoint e.id)
    | none => .ok ()

def drawnNodes (g : Graph K) : List (Node K) := g.nodes.filter (!·.isGroup)

def groupIds (g : Graph K) : List String := (g.nodes.filter (·.isGroup)).map (·.id)

end Graph

end RingLayout
