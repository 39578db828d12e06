import RingLayout.Drawing.Packing
import RingLayout.Run.Steps

/-! # Carrying a run through

A run is prepared once, advanced tick by tick until its simulation is over, and finished once. Time
is an input: a clock gives the milliseconds gone by after every number of iterations.
-/

namespace RingLayout

namespace Run

variable {K : Type} [Scalar K]

@[specialize] def prerun (r : Run K) : Run K :=
  if r.stage ≠ .created then r
  else if r.options.quality = .draft && !r.options.randomize then
    { r.finish with
      diagnostics := r.diagnostics ++ [.draftWithoutRandomize]
      keepsPositions := true }
  else
    let r := if r.options.randomize then r.seedNodes else r
    let d := placeRings r.drawing r.options
    let r := { r with drawing := d, connected := d.rootIsConnected }
    if r.options.quality = .draft then r.finish
    else
      let r := { r with stage := .simulating }.enterStep .settle
      if r.stepBudget = 0 then r.advanceStep else r

def outOfTime (clock : Clock) (r : Run K) : Bool :=
  match r.options.timeBudget with
  | some limit => decide (limit ≤ clock r.totalIterations)
  | none => false

def stop (r : Run K) : Run K :=
  { r.finish with diagnostics := r.diagnostics ++ [.timeBudgetExhausted r.totalIterations] }

/-- Up to the given number of iterations, as long as the simulation goes on. -/
@[specialize] def iterations (clock : Clock) : Nat → Run K → Run K
  | 0, r => r
  | n + 1, r =>
    if r.outOfTime clock then r.stop
    else
      let r := r.iterate
      if r.stage = .simulating then iterations clock n r else r

/-- Advances the simulation by the iterations of a tick, and says whether it is over. -/
@[specialize] def tick (clock : Clock) (r : Run K) : Bool × Run K :=
  let r := r.prerun
  let r := if r.stage = .simulating then iterations clock (max r.options.refresh 1) r else r
  (decide (r.stage ≠ .simulating), r)

/-- Packs and tiles the drawing, once, after the simulation has begun. -/
@[specialize] def postrun (r : Run K) : Run K :=
  match r.stage with
  | .created => r
  | .postProcessed => r
  | _ =>
    let r := { r with stage := .postProcessed }
    if r.keepsPositions then r
    else
      let o := r.options
      let d := r.drawing
      let d := if o.packComponents then (d.packComponents o.effectiveEdgeLength).2 else d
      let d :=
        if o.tile then d.tileIsolated o.tilingPaddingHorizontal o.tilingPaddingVertical else d
      let d := match r.initialCenter with
        | some center => d.centerOn center
        | none => d
      { r with drawing := d }

/-- The iterations that all steps may use together. -/
@[specialize] def totalBudget (r : Run K) : Nat :=
  Step.active.foldr (fun s n => r.budgetFor s + n) 0

/-- Ticks until the simulation is over, `fuel` times at most, and shows every state to an
observer. -/
@[specialize] def ticksUntilDone {σ : Type} (clock : Clock) (observe : σ → Run K → σ) :
    Nat → σ → Run K → σ × Run K
  | 0, seen, r => (seen, r)
  | fuel + 1, seen, r =>
    let (done, r) := r.tick clock
    let seen := observe seen r
    if done then (seen, r) else ticksUntilDone clock observe fuel seen r

/-- The whole run. Every tick but the last uses up iterations, so that the ticks end before the
fuel does. -/
@[specialize] def complete {σ : Type} (clock : Clock) (observe : σ → Run K → σ) (seen : σ)
    (r : Run K) : σ × Run K :=
  let (seen, r) := ticksUntilDone clock observe (r.totalBudget + 2) seen r.prerun
  (seen, r.postrun)

end Run

end RingLayout
