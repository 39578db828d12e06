import RingLayout.Drawing.Reversal
import RingLayout.Run.Seeding

/-! # The steps of a run

Every step has a share of all iterations for its budget. It ends when the budget is used up or, at
the end of a cycle, when the drawing has settled; steps without budget are passed over.
-/

namespace RingLayout

open Scalar

namespace Run

variable {K : Type} [Scalar K]

@[specialize] def budgetFor (r : Run K) (s : Step) : Nat :=
  floorNat ((r.options.iterations : K) * s.share)

/-- What is done to the drawing when a step begins. -/
@[specialize] def prepareFor (o : Options K) (s : Step) (d : Drawing K) : Drawing K :=
  match s with
  | .reverse => d.ringNumbers.foldl Drawing.observeOrder d
  | .exchange => d.refreshExchanges
  | .polish => d.assignIdealLengths o 1.5
  | _ => d

@[specialize] def enterStep (r : Run K) (s : Step) : Run K :=
  { r with
    step := s
    stepIteration := 0
    oldDisplacement := 0.0
    lastDisplacement := 0.0
    stepBudget := r.budgetFor s
    drawing := prepareFor r.options s r.drawing }

/-- What is done to the drawing when a step ends. -/
@[specialize] def leaveStep (r : Run K) : Run K :=
  if r.step = .exchange && r.options.allowInside then
    { r with drawing :=
        (r.drawing.relocateInside r.options.effectiveInsideRatio r.options.effectiveSeparation).2 }
  else r

/-- Goes on to the next step with a budget, or ends the simulation, after `fuel` steps at most.
Five steps lead from the first to the last. -/
@[specialize] def advanceStepBy : Nat → Run K → Run K
  | 0, r => r.finish
  | fuel + 1, r =>
    let r := r.leaveStep
    if r.step = .done then { r with stage := .finished }
    else
      let r := r.enterStep r.step.next
      if r.step = .done then { r with stage := .finished }
      else if 0 < r.stepBudget then r
      else advanceStepBy fuel r

@[specialize] def advanceStep (r : Run K) : Run K := advanceStepBy 6 r

/-- Whether the current step may end early, with the displacement remembered for the next time.
Exchanges need time to settle: their step lasts a quarter of its budget at least. -/
@[specialize] def checkSettled (r : Run K) : Bool × Run K :=
  let settled := Cooling.settled r.stepIteration r.stepBudget r.threshold r.lastDisplacement
    r.oldDisplacement
  let mayEnd := r.step != .exchange || decide (r.stepBudget ≤ r.stepIteration * 4)
  (mayEnd && settled, { r with oldDisplacement := r.lastDisplacement })

def phase (r : Run K) : ExchangePhase :=
  if r.step = .exchange then ExchangePhase.ofIteration r.stepIteration else .idle

/-- The iterations between two tests for reversal. -/
def reversalPeriod : Nat := 50

/-- Counts an iteration and cools down at the end of a cycle. -/
@[specialize] def countIteration (r : Run K) : Run K :=
  let total := r.totalIterations + 1
  { r with
    stepIteration := r.stepIteration + 1
    totalIterations := total
    cooling := if total % Cooling.period = 0 then r.cooling.advance else r.cooling }

@[specialize] def moveBodies (r : Run K) : Run K :=
  let d := if r.phase = .beginGathering then r.drawing.refreshExchanges else r.drawing
  let (d, total) := (Drawing.gatherForces r.forces r.connected d).move r.cooling.factor
    r.phase.gathers
  { r with drawing := d, lastDisplacement := total }

/-- Reverses rings where that helps, now and then in the second step. -/
@[specialize] def reverseRings (r : Run K) : Run K :=
  if r.step = .reverse ∧ r.stepIteration % reversalPeriod = 0 then
    { r with drawing :=
        r.drawing.ringNumbers.foldl (fun d c => (Drawing.tryReverse d c).2) r.drawing }
  else r

@[specialize] def exchangeNeighbors (r : Run K) : Run K :=
  if r.phase = .carryOut then
    let (_, d, memory) := r.drawing.performExchanges r.memory
    { r with drawing := d, memory := memory }
  else r

/-- Ends the step when its budget is used up or, at the end of a cycle, when it has settled. -/
@[specialize] def endIteration (r : Run K) : Run K :=
  if r.stepBudget ≤ r.stepIteration then r.advanceStep
  else if r.stepIteration % Cooling.period = 0 then
    let (settled, r) := r.checkSettled
    if settled then r.advanceStep else r
  else r

@[specialize] def iterate (r : Run K) : Run K :=
  r.countIteration.moveBodies.reverseRings.exchangeNeighbors.endIteration

end Run

end RingLayout
