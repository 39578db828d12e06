import RingLayout.Graph

/-! # Layout options

Options keep the values as given; the accessors under `effective` names replace values that no
layout can work with by the defaults.
-/

namespace RingLayout

inductive Quality where
  /-- The spectral embedding and the placement of the rings only. -/
  | draft
  | standard
  /-- The whole simulation with slower cooling. -/
  | proof
deriving Repr, DecidableEq

inductive Sampling where
  | random
  | greedy
deriving Repr, DecidableEq

/-- Which nodes share a ring. -/
inductive Clustering (K : Type) where
  | none
  /-- Disjoint cells of node ids; a node in no cell stays off the rings. -/
  | cells (cells : List (List String))
  /-- Nodes with the same nonnegative number share a ring; the others stay off the rings. -/
  | classify (number : Node K → Option Int)

structure Options (K : Type) where
  seed : UInt64 := 0
  /-- Start from a spectral embedding rather than from the given positions. -/
  randomize : Bool := true
  quality : Quality := .standard
  /-- Gap between neighbours on a ring, and the length of a hop in the spectral embedding. -/
  nodeSeparation : K
  idealEdgeLength : K
  interClusterCoefficient : K
  nodeRepulsion : K
  gravity : K
  /-- The multiple of the estimated size of the drawing beyond which gravity acts. -/
  gravityRange : K
  springCoefficient : K
  iterations : Nat := 2500
  refresh : Nat := 10
  sampling : Sampling := .greedy
  sampleSize : Nat := 25
  powerTolerance : K
  allowInside : Bool := false
  maxInsideRatio : K
  packComponents : Bool := true
  tile : Bool := true
  tilingPaddingVertical : K
  tilingPaddingHorizontal : K
  /-- A hint for whoever shows the layout; it moves nothing. -/
  animate : Bool := false
  /-- A hint for whoever shows the layout, in milliseconds. -/
  animationDuration : Nat := 500
  /-- Time allowed for the simulation, in milliseconds. -/
  timeBudget : Option Nat := none
  clustering : Clustering K := .none

namespace Options

variable {K : Type} [Scalar K]

/-- The options of a caller who asks for nothing. -/
def defaults : Options K where
  nodeSeparation := 12.5
  idealEdgeLength := 50.0
  interClusterCoefficient := 1.4
  nodeRepulsion := 4500.0
  gravity := 0.25
  gravityRange := 3.8
  springCoefficient := 0.45
  powerTolerance := 1e-7
  maxInsideRatio := 0.1
  tilingPaddingVertical := 10.0
  tilingPaddingHorizontal := 10.0

/-- A finite positive number, or else the fallback. -/
def positiveOr (x fallback : K) : K :=
  if Scalar.isFinite x && decide (0.0 < x) then x else fallback

def effectiveEdgeLength (o : Options K) : K := positiveOr o.idealEdgeLength 50.0

def effectiveInterCluster (o : Options K) : K := positiveOr o.interClusterCoefficient 1.4

def effectiveSeparation (o : Options K) : K := positiveOr o.nodeSeparation 12.5

def effectiveRepulsion (o : Options K) : K := positiveOr o.nodeRepulsion 4500.0

def effectiveSpring (o : Options K) : K := positiveOr o.springCoefficient 0.45

/-- Gravity may be 0. -/
def effectiveGravity (o : Options K) : K :=
  if Scalar.isFinite o.gravity && decide (0.0 ≤ o.gravity) then o.gravity else 0.25

def effectiveGravityRange (o : Options K) : K := positiveOr o.gravityRange 3.8

def effectiveTolerance (o : Options K) : K := positiveOr o.powerTolerance 1e-7

/-- The share of a ring that may move inside it, between none and all. -/
def effectiveInsideRatio (o : Options K) : K :=
  if Scalar.isFinite o.maxInsideRatio then Scalar.clamp o.maxInsideRatio 0.0 1.0 else 0.1

/-- The ideal length of an edge between clusters. -/
def interClusterLength (o : Options K) : K := o.effectiveEdgeLength * o.effectiveInterCluster

end Options

end RingLayout
