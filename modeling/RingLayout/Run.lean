import RingLayout.Cooling
import RingLayout.Drawing.Build
import RingLayout.Drawing.Exchange
import RingLayout.Drawing.Motion
import RingLayout.Random

/-! # Layout runs

A run holds a drawing on its way to a layout. It goes through four stages, and its simulation
through five steps: rings move rigidly in the first and third, may be reversed in the second and
exchange neighbours in the fourth; the last polishes with longer links.
-/

namespace RingLayout

open Scalar

/-- The steps of the simulation. -/
inductive Step where
  | settle
  /-- Rings may be reversed. -/
  | reverse
  | resettle
  /-- Neighbours may be exchanged; afterwards members may move inside. -/
  | exchange
  /-- Links are longer. -/
  | polish
  | done
deriving Repr, DecidableEq

namespace Step

def next : Step → Step
  | .settle => .reverse
  | .reverse => .resettle
  | .resettle => .exchange
  | .exchange => .polish
  | .polish => .done
  | .done => .done

/-- The share of all iterations that a step may use. -/
@[specialize] def share {K : Type} [Scalar K] : Step → K
  | .settle => 0.20
  | .reverse => 0.20
  | .resettle => 0.10
  | .exchange => 0.35
  | .polish => 0.15
  | .done => 0.0

/-- The steps that iterate, in order. -/
def active : List Step := [.settle, .reverse, .resettle, .exchange, .polish]

end Step

/-- How far a run has come. -/
inductive Stage where
  | created
  | simulating
  | finished
  | postProcessed
deriving Repr, DecidableEq

/-- What a caller should know about a layout. -/
inductive Diagnostic where
  /-- A draft that may not move anything keeps the given positions. -/
  | draftWithoutRandomize
  /-- The time was used up after some iterations. -/
  | timeBudgetExhausted (iterations : Nat)
deriving Repr, DecidableEq

/-- The milliseconds gone by after every number of iterations. -/
abbrev Clock := Nat → Nat

structure Run (K : Type) where
  options : Options K
  drawing : Drawing K
  random : Random
  forces : ForceSettings K
  stage : Stage
  step : Step
  stepIteration : Nat
  stepBudget : Nat
  totalIterations : Nat
  cooling : Cooling K
  /-- The total displacement below which a step has settled. -/
  threshold : K
  oldDisplacement : K
  lastDisplacement : K
  connected : Bool
  memory : ExchangeMemory
  /-- The center of the given positions, to which the drawing returns. -/
  initialCenter : Option (Point K)
  /-- Whether the given positions stay as they are. -/
  keepsPositions : Bool
  diagnostics : List Diagnostic

namespace Run

variable {K : Type} [Scalar K]

/-- The cycles that a simulation is cooled over; the best quality takes twice as long. -/
@[specialize] def expectedCycles (o : Options K) : K :=
  let cycles := (o.iterations : K) / (Cooling.period : K)
  if o.quality = .proof then cycles * 2.0 else cycles

@[specialize] def ofDrawing (d : Drawing K) (o : Options K) : Run K :=
  { options := o
    drawing := d
    random := Random.ofSeed o.seed
    forces := ForceSettings.ofOptions o
    stage := .created
    step := .settle
    stepIteration := 0
    stepBudget := 0
    totalIterations := 0
    cooling := Cooling.start (expectedCycles o)
    threshold := 3.0 * o.effectiveEdgeLength / 100.0 * (max d.simulated.length 1 : Nat)
    oldDisplacement := 0.0
    lastDisplacement := 0.0
    connected := true
    memory := ExchangeMemory.empty
    initialCenter :=
      if o.randomize then none else (Extent.cover? d.nodeBoxes).map (·.center)
    keepsPositions := false
    diagnostics := [] }

/-- A run for a graph and options that fit together. -/
@[specialize] def create (g : Graph K) (o : Options K) : Except GraphError (Run K) :=
  (Drawing.build g o).map fun d => ofDrawing d o

/-- Whether the simulation is over or was never needed. -/
def isDone (r : Run K) : Bool :=
  match r.stage with
  | .finished => true
  | .postProcessed => true
  | _ => false

def finish (r : Run K) : Run K := { r with step := .done, stage := .finished }

end Run

end RingLayout
