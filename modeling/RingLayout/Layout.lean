import RingLayout.Run.Progress

/-! # Layouts

The positions of the drawn nodes and the bounds of the groups, in the order of their ids. The
functions of this module carry a layout through from a graph to its result.
-/

namespace RingLayout

/-- The result of a layout, or an intermediate state of one. -/
structure Layout (K : Type) where
  positions : List (String × Point K)
  groupBounds : List (String × Box K)
  diagnostics : List Diagnostic

namespace Layout

variable {K : Type} [Scalar K]

def sortById {α : Type} (entries : List (String × α)) : List (String × α) :=
  entries.mergeSort fun a b => !decide (b.1 < a.1)

/-- The boxes that the bounds of a group take in: those of its nodes and of the rings that they
belong to. -/
@[specialize] def groupBoxes (d : Drawing K) (group : String) : List (Box K) :=
  (d.bodies.toList.take d.nodeCount).flatMap fun b =>
    if b.group = some group then
      match b.role.ring? with
      | some c => [b.box, (d.body (d.ring c).hub).box]
      | none => [b.box]
    else []

@[specialize] def bounds? (d : Drawing K) (group : String) : Option (Box K) :=
  (Extent.cover? (groupBoxes d group)).map fun e => ⟨e.minX, e.minY, e.width, e.height⟩

@[specialize] def ofRun (r : Run K) : Layout K :=
  let d := r.drawing
  { positions := sortById ((d.bodies.toList.take d.nodeCount).filterMap fun b =>
      b.id.map fun id => (id, b.center))
    groupBounds := sortById (d.groups.filterMap fun group =>
      (bounds? d group).map fun box => (group, box))
    diagnostics := r.diagnostics }

/-- Lays a graph out and shows the layout after every tick to an observer. -/
@[specialize] def withProgress {σ : Type} (g : Graph K) (o : Options K) (clock : Clock)
    (observe : σ → Layout K → σ) (seen : σ) : Except GraphError (σ × Layout K) :=
  (Run.create g o).map fun r =>
    let (seen, r) := r.complete clock (fun seen r => observe seen (ofRun r)) seen
    (seen, ofRun r)

@[specialize] def compute (g : Graph K) (o : Options K) (clock : Clock) :
    Except GraphError (Layout K) :=
  (Run.create g o).map fun r => ofRun (r.complete clock (fun _ _ => ()) ()).2

end Layout

end RingLayout
