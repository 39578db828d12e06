import RingLayout.Arrangement
import RingLayout.Drawing.Interior
import RingLayout.Embedding
import RingLayout.Placement
import RingLayout.Run

/-! # Seeding a run

Before the simulation the nodes are placed by a spectral embedding, the members of every ring are
arranged, and the rings are placed as wholes.
-/

namespace RingLayout

namespace Run

variable {K : Type} [Scalar K]

/-- Moves the simulated nodes to a spectral embedding. -/
@[specialize] def seedNodes (r : Run K) : Run K :=
  let d := r.drawing
  let o := r.options
  let nodes := d.simulated
  let pairs := d.links.toList.filterMap fun l =>
    match nodes.idxOf? l.source, nodes.idxOf? l.target with
    | some a, some b => some (a, b)
    | _, _ => none
  let settings : Embedding.Settings K :=
    { sampling := o.sampling
      sampleSize := o.sampleSize
      hopLength := o.effectiveSeparation
      edgeLength := o.effectiveEdgeLength
      tolerance := o.effectiveTolerance }
  let boxes := nodes.map fun v => (d.body v).box
  let (_, centers, random) := Embedding.embed (boxes.map (·.center))
    (boxes.map fun b => (b.width, b.height)) pairs settings r.random
  let d := (nodes.zip centers).foldl (fun d (v, p) => d.setCenter v p) d
  { r with drawing := d, random := random }

@[specialize] def seedHub (d : Drawing K) (c : Nat) : Drawing K :=
  let members := (d.ring c).order
  if members.isEmpty then d else d.setCenter (d.ring c).hub (d.centroid members)

/-- Arranges the members of a ring and lays them out, the first of them at angle 0. -/
@[specialize] def arrangeRing (d : Drawing K) (c : Nat) (separation : K) : Drawing K :=
  let members := (d.ring c).order
  let edges := (d.ring c).innerLinks.filterMap fun e =>
    let l := d.link e
    match members.idxOf? l.source, members.idxOf? l.target with
    | some a, some b => some (a, b)
    | _, _ => none
  let order := (Arrangement.arrange members.length edges).filterMap fun i => members[i]?
  let d := order.zipIdx.foldl
    (fun d (v, i) => d.modifySeat v fun s => { s with index := i, angle := 0.0 }) d
  (d.modifyRing c fun ring => { ring with order := order }).spread c separation

@[specialize] def placeRings (d : Drawing K) (o : Options K) : Drawing K :=
  let d := d.ringNumbers.foldl seedHub d
  let d := d.ringNumbers.foldl (fun d c => arrangeRing d c o.effectiveSeparation) d
  let d := d.assignIdealLengths o 1.0
  (Placement.ofDrawing d o).run.apply d

end Run

end RingLayout
