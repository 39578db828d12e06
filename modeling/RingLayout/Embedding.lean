import RingLayout.Embedding.Connected
import RingLayout.Embedding.SingularValues
import RingLayout.Options
import RingLayout.Random

/-! # Spectral embedding

Start positions come from the hop distances of all nodes to a few landmarks. The squared distances
are doubly centered through the landmarks alone, and the two dominant directions, found by power
iteration, become the coordinates. Where the numbers degenerate, the nodes go on a grid.
-/

namespace RingLayout.Embedding

open Scalar

/-- What the embedding is computed from besides the graph. -/
structure Settings (K : Type) where
  sampling : Sampling
  sampleSize : Nat
  hopLength : K
  edgeLength : K
  tolerance : K

/-- How the positions came about. -/
inductive Outcome where
  | spectral
  /-- At most two nodes, placed directly. -/
  | shortcut
  /-- The numbers degenerated; the nodes are on a grid. -/
  | grid
deriving Repr, DecidableEq

variable {K : Type} [Scalar K]

/-- The distance that stands for no path. -/
def unreachable : K := 100000000.0

/-- A length below which directions are not told apart. -/
def tiny : K := 1e-9

@[specialize] def distances (adj : Adjacency) (hopLength : K) (v : Nat) : List K :=
  (adj.hopsFrom v).toList.map fun
    | some hops => (hops : K) * hopLength
    | none => unreachable

/-- The first index of the greatest positive entry, given the best entry so far; 0 if there is
none. -/
@[specialize] def farthest (index best : Nat) (greatest : K) : List K → Nat
  | [] => best
  | d :: ds =>
    if greatest < d then farthest (index + 1) index d ds else farthest (index + 1) best greatest ds

/-- Landmarks beginning with `v`, each followed by the node farthest from all landmarks so far;
`nearest` holds the distances to the landmarks before `v`. -/
@[specialize] def greedyLandmarks (adj : Adjacency) (hopLength : K) :
    Nat → Nat → List K → List Nat
  | 0, _, _ => []
  | count + 1, v, nearest =>
    let nearest := List.zipWith (fun d m => if d < m then d else m)
      (distances adj hopLength v) nearest
    v :: greedyLandmarks adj hopLength count (farthest 0 0 0.0 nearest) nearest

@[specialize] def landmarks (adj : Adjacency) (s : Settings K) (rng : Random) :
    List Nat × Random :=
  let count := min adj.size (max s.sampleSize 2)
  match s.sampling with
  | .greedy =>
    let (first, rng) := Random.nextIndex K rng adj.size
    (greedyLandmarks adj s.hopLength count first (List.replicate adj.size unreachable), rng)
  | .random => Random.distinct K rng adj.size count

@[specialize] def squaredDistances (adj : Adjacency) (hopLength : K) (marks : List Nat) :
    Array (Array K) :=
  (marks.map fun v => ((distances adj hopLength v).map fun d => d * d).toArray).toArray

@[specialize] def betweenLandmarks (columns : Array (Array K)) (marks : List Nat) :
    Array (Array K) :=
  columns.map fun column => (marks.map fun v => column.getD v 0.0).toArray

/-- The squared distances to the landmarks and the damped inverse of the part of them that lies
between landmarks. -/
structure Sketch (K : Type) where
  nodes : Nat
  columns : Array (Array K)
  inverse : Array (Array K)

@[specialize] def Sketch.ofLandmarks (adj : Adjacency) (hopLength : K) (marks : List Nat) :
    Sketch K :=
  let columns := squaredDistances adj hopLength marks
  ⟨adj.size, columns, Linear.dampedInverse (betweenLandmarks columns marks)⟩

/-- The product of the doubly centered matrix with a vector. -/
@[specialize] def Sketch.apply (s : Sketch K) (v : Array K) : Array K :=
  let t := Linear.products s.columns (Linear.center v)
  let t := Linear.combine s.columns.size s.inverse t
  Linear.center (Linear.scale (-0.5) (Linear.combine s.nodes s.columns t))

/-- Applies the matrix again and again, at most `steps` times, until the direction no longer
changes by more than the tolerance. Gives the direction and the last growth factor. -/
@[specialize] def powerSteps (s : Sketch K) (avoid : Option (Array K)) (tolerance : K) :
    Nat → Array K → K → K → Array K × K
  | 0, y, _, growth => (y, growth)
  | steps + 1, y, previous, _ =>
    let v := match avoid with
      | some u => Linear.reject u y
      | none => y
    let image := s.apply v
    let growth := Linear.dot v image
    let next := Linear.normalize image
    let current := Linear.dot v next
    let base := if Scalar.abs previous < tiny then tiny else previous
    let ratio := Scalar.abs (current / base)
    if 1.0 ≤ ratio ∧ ratio ≤ 1.0 + tolerance then (next, growth)
    else powerSteps s avoid tolerance steps next current growth

/-- A dominant direction, apart from `avoid`, and its growth factor. -/
@[specialize] def direction (s : Sketch K) (avoid : Option (Array K)) (tolerance : K)
    (start : Array K) : Array K × K :=
  powerSteps s avoid tolerance 10000 start tiny 0.0

/-- The two coordinates of all nodes, from random start directions. -/
@[specialize] def coordinates (s : Sketch K) (tolerance : K) (rng : Random) :
    (Array K × Array K) × Random :=
  let (start1, rng) := Random.units s.nodes rng
  let (start2, rng) := Random.units s.nodes rng
  let (u, growth1) := direction s none tolerance (Linear.normalize start1.toArray)
  let (v, growth2) := direction s (some u) tolerance (Linear.normalize start2.toArray)
  ((Linear.scale (sqrt (Scalar.abs growth1)) u, Linear.scale (sqrt (Scalar.abs growth2)) v), rng)

/-- Centers of `n` nodes on a grid, row by row, with cells as wide as the largest side plus
`spacing`. -/
@[specialize] def gridCenters (n : Nat) (sizes : List (K × K)) (spacing : K) :
    List (Point K) :=
  let columns := max (ceilNat (sqrt (n : K))) 1
  let cell := (sizes.map fun (w, h) => maxNum w h).foldl maxNum 0.0 + spacing
  (List.range n).map fun i => ⟨(i % columns : Nat) * cell, (i / columns : Nat) * cell⟩

/-- Whether all coordinates are finite and some point lies apart from the first. -/
@[specialize] def isSpread (points : List (Point K)) : Bool :=
  match points with
  | [] => false
  | first :: _ =>
    points.all (fun p => Scalar.isFinite p.x && Scalar.isFinite p.y) &&
      points.any fun p =>
        decide (tiny < Scalar.abs (p.x - first.x)) || decide (tiny < Scalar.abs (p.y - first.y))

/-- Start positions for nodes with the given centers and sizes, joined by pairs of indices. -/
@[specialize] def embed (centers : List (Point K)) (sizes : List (K × K))
    (pairs : List (Nat × Nat)) (s : Settings K) (rng : Random) :
    Outcome × List (Point K) × Random :=
  let n := centers.length
  let adj := Adjacency.connected n pairs
  if adj.size ≤ 1 then (.shortcut, centers, rng)
  else if adj.size = 2 then
    match centers, sizes with
    | [p, _], (w, _) :: (w', _) :: _ =>
      (.shortcut, [p, ⟨p.x + w / 2.0 + w' / 2.0 + s.edgeLength, p.y⟩], rng)
    | _, _ => (.shortcut, centers, rng)
  else
    let (marks, rng) := landmarks adj s rng
    let sketch := Sketch.ofLandmarks adj s.hopLength marks
    let ((xs, ys), rng) := coordinates sketch s.tolerance rng
    let points := (List.range n).map fun i => (⟨xs.getD i 0.0, ys.getD i 0.0⟩ : Point K)
    if isSpread points then (.spectral, points, rng)
    else (.grid, gridCenters n sizes s.edgeLength, rng)

end RingLayout.Embedding
