import Mathlib.Tactic.Common
import RingLayout.Run.Progress

/-! # The schedule of a run

Stages and steps follow each other in order. What the parts of a run can do to them is said here
once: entering and leaving steps, one iteration, the preparation, and the calls of a caller as
sequences of these.
-/

namespace RingLayout

/-- How far along a step is. -/
def Step.rank : Step → Nat
  | .settle => 0
  | .reverse => 1
  | .resettle => 2
  | .exchange => 3
  | .polish => 4
  | .done => 5

/-- How far along a stage is. -/
def Stage.rank : Stage → Nat
  | .created => 0
  | .simulating => 1
  | .finished => 2
  | .postProcessed => 3

theorem Stage.rank_le (s : Stage) : s.rank ≤ 3 := by
  cases s <;> decide

theorem Stage.rank_pos {s : Stage} (hs : s ≠ .created) : 1 ≤ s.rank := by
  cases s <;> first | decide | exact absurd rfl hs

namespace Step

theorem rank_le (s : Step) : s.rank ≤ 5 := by
  cases s <;> decide

theorem rank_inj {s t : Step} : s.rank = t.rank ↔ s = t := by
  cases s <;> cases t <;> decide

theorem rank_next {s : Step} (hs : s ≠ .done) : s.next.rank = s.rank + 1 := by
  cases s <;> first | rfl | exact absurd rfl hs

theorem rank_lt {s : Step} (hs : s ≠ .done) : s.rank < 5 := by
  cases s <;> first | decide | exact absurd rfl hs

end Step

namespace Run

variable {K : Type} [Scalar K]

/-! ## Leaving steps -/

/-- What a run has besides its drawing that leaving and entering steps keeps. -/
structure SameCourse (r r' : Run K) : Prop where
  options_eq : r'.options = r.options
  total_eq : r'.totalIterations = r.totalIterations
  diagnostics_eq : r'.diagnostics = r.diagnostics
  keeps_eq : r'.keepsPositions = r.keepsPositions

/-- A run has gone on to a later step with a budget, or to the end. The steps between have none. -/
structure Advanced (r r' : Run K) : Prop where
  course : SameCourse r r'
  rank_lt : r.step.rank < r'.step.rank
  passed : ∀ s : Step, r.step.rank < s.rank → s.rank < r'.step.rank → r.budgetFor s = 0
  next : r'.stage = .finished ∧ r'.step = .done ∨
    r'.stage = .simulating ∧ r'.step ≠ .done ∧ r'.stepIteration = 0 ∧
      r'.stepBudget = r.budgetFor r'.step ∧ 0 < r'.stepBudget

theorem leaveStep_eq (r : Run K) : r.leaveStep = { r with drawing := r.leaveStep.drawing } := by
  unfold leaveStep
  split <;> rfl

theorem step_leaveStep (r : Run K) : r.leaveStep.step = r.step := by rw [leaveStep_eq]

theorem options_leaveStep (r : Run K) : r.leaveStep.options = r.options := by rw [leaveStep_eq]

theorem stage_leaveStep (r : Run K) : r.leaveStep.stage = r.stage := by rw [leaveStep_eq]

theorem budgetFor_congr {r r' : Run K} (h : r'.options = r.options) (s : Step) :
    r'.budgetFor s = r.budgetFor s := by
  rw [budgetFor, budgetFor, h]

/-- The next step with a budget is found before the fuel is used up. -/
theorem advanced_advanceStepBy (fuel : Nat) (r : Run K) (hstage : r.stage = .simulating)
    (hstep : r.step ≠ .done) (hfuel : 5 ≤ r.step.rank + fuel) :
    Advanced r (advanceStepBy fuel r) := by
  induction fuel generalizing r with
  | zero => exact absurd (Step.rank_lt hstep) (Nat.not_lt.mpr hfuel)
  | succ fuel ih =>
      have hnext := Step.rank_next hstep
      have hcourse : SameCourse r (r.leaveStep.enterStep r.step.next) := by
        rw [leaveStep_eq]
        exact ⟨rfl, rfl, rfl, rfl⟩
      have hbudget : (r.leaveStep.enterStep r.step.next).stepBudget = r.budgetFor r.step.next :=
        budgetFor_congr r.options_leaveStep _
      have hbetween : ∀ s : Step, r.step.rank < s.rank → s.rank < r.step.next.rank →
          r.budgetFor s = 0 := fun s hlt hgt => by omega
      rw [advanceStepBy]
      dsimp only
      rw [step_leaveStep, if_neg hstep]
      split
      next hdone =>
        exact ⟨⟨hcourse.options_eq, hcourse.total_eq, hcourse.diagnostics_eq, hcourse.keeps_eq⟩,
          by simp only [enterStep, hnext]; omega, hbetween, Or.inl ⟨rfl, hdone⟩⟩
      next hdone =>
        have hsimulating : (r.leaveStep.enterStep r.step.next).stage = .simulating :=
          r.stage_leaveStep.trans hstage
        split
        next hpos =>
          exact ⟨hcourse, by simp only [enterStep, hnext]; omega, hbetween,
            Or.inr ⟨hsimulating, hdone, rfl, hbudget, hpos⟩⟩
        next hzero =>
          -- the next step has no budget: go on from it with one step less ahead
          have hrest := ih _ hsimulating hdone (by
            change 5 ≤ r.step.next.rank + fuel
            omega)
          obtain ⟨⟨hoptions, htotal, hdiagnostics, hkeeps⟩, hrank, hpassed, hend⟩ := hrest
          change r.step.next.rank < _ at hrank
          have hsame := budgetFor_congr hcourse.options_eq
          refine ⟨⟨hoptions.trans hcourse.options_eq, htotal.trans hcourse.total_eq,
            hdiagnostics.trans hcourse.diagnostics_eq, hkeeps.trans hcourse.keeps_eq⟩,
            by omega, ?_, ?_⟩
          · intro s hlt hgt
            by_cases hs : s.rank = r.step.next.rank
            · rw [Step.rank_inj.mp hs, ← hbudget]
              omega
            · rw [← hsame]
              exact hpassed s (by change r.step.next.rank < s.rank; omega) hgt
          · simp only [hsame] at hend
            exact hend

theorem advanced_advanceStep {r : Run K} (hstage : r.stage = .simulating)
    (hstep : r.step ≠ .done) : Advanced r r.advanceStep :=
  advanced_advanceStepBy 6 r hstage hstep (by omega)

/-! ## Iterations -/

/-- The run in an iteration, before it is decided whether the step ends. -/
def worked (r : Run K) : Run K :=
  r.countIteration.moveBodies.reverseRings.exchangeNeighbors

/-- The reasons for which an iteration is the last of its step. -/
def StepEnds (r : Run K) : Prop :=
  r.stepBudget ≤ r.stepIteration + 1 ∨
    (r.stepIteration + 1) % Cooling.period = 0 ∧
      (r.step = .exchange → r.stepBudget ≤ (r.stepIteration + 1) * 4)

theorem reverseRings_eq (r : Run K) :
    r.reverseRings = { r with drawing := r.reverseRings.drawing } := by
  unfold reverseRings
  split <;> rfl

theorem exchangeNeighbors_eq (r : Run K) :
    r.exchangeNeighbors =
      { r with
        drawing := r.exchangeNeighbors.drawing
        memory := r.exchangeNeighbors.memory } := by
  unfold exchangeNeighbors
  split <;> rfl

/-- The work of an iteration counts it and leaves the schedule alone. -/
theorem worked_eq (r : Run K) : ∃ d cooling last memory, r.worked =
    { r with
      drawing := d
      stepIteration := r.stepIteration + 1
      totalIterations := r.totalIterations + 1
      cooling := cooling
      lastDisplacement := last
      memory := memory } := by
  unfold worked
  rw [exchangeNeighbors_eq, reverseRings_eq]
  exact ⟨_, _, _, _, rfl⟩

/-- One more iteration of the same step has been counted. -/
structure Counted (r w : Run K) : Prop where
  options_eq : w.options = r.options
  stage_eq : w.stage = r.stage
  step_eq : w.step = r.step
  stepIteration_eq : w.stepIteration = r.stepIteration + 1
  stepBudget_eq : w.stepBudget = r.stepBudget

theorem counted_worked (r : Run K) : Counted r r.worked := by
  obtain ⟨d, cooling, last, memory, hworked⟩ := r.worked_eq
  rw [hworked]
  exact ⟨rfl, rfl, rfl, rfl, rfl⟩

/-- An iteration stays in its step, or it ends it and the run goes on to another. -/
theorem iterate_cases (r : Run K) :
    (∃ x, r.iterate = { r.worked with oldDisplacement := x } ∧
        r.stepIteration + 1 < r.stepBudget) ∨
      ∃ x, r.iterate = ({ r.worked with oldDisplacement := x } : Run K).advanceStep ∧
        r.StepEnds := by
  obtain ⟨-, -, hstep, hiteration, hbudget⟩ := r.counted_worked
  have hiterate : r.iterate = r.worked.endIteration := rfl
  rw [hiterate]
  -- the numbers above are all that the decision needs of the work
  generalize r.worked = w at *
  unfold endIteration
  split
  next hend =>
    rw [hbudget, hiteration] at hend
    exact Or.inr ⟨w.oldDisplacement, rfl, Or.inl hend⟩
  next hend =>
    rw [hbudget, hiteration] at hend
    split
    next hcycle =>
      rw [hiteration] at hcycle
      unfold checkSettled
      dsimp only
      split
      next hsettled =>
        refine Or.inr ⟨_, rfl, Or.inr ⟨hcycle, fun hexchange => ?_⟩⟩
        rw [hstep, hexchange, hbudget, hiteration] at hsettled
        simpa using (Bool.and_eq_true_iff.mp hsettled).1
      next => exact Or.inl ⟨_, rfl, Nat.lt_of_not_le hend⟩
    next => exact Or.inl ⟨w.oldDisplacement, rfl, Nat.lt_of_not_le hend⟩

/-- With a budget of at most one cycle, a step goes on until the budget is used up. -/
theorem iterate_eq_worked {r : Run K} (hmore : r.stepIteration + 1 < r.stepBudget)
    (hcycle : r.stepBudget ≤ Cooling.period) : r.iterate = r.worked := by
  obtain ⟨-, -, -, hiteration, hbudget⟩ := r.counted_worked
  have hwithin : (r.stepIteration + 1) % Cooling.period ≠ 0 := by
    rw [Nat.mod_eq_of_lt (Nat.lt_of_lt_of_le hmore hcycle)]
    exact Nat.succ_ne_zero _
  change r.worked.endIteration = r.worked
  rw [endIteration, hbudget, hiteration, if_neg (Nat.not_le.mpr hmore), if_neg hwithin]

theorem iterate_eq_advanceStep {r : Run K} (hlast : r.stepBudget ≤ r.stepIteration + 1) :
    r.iterate = r.worked.advanceStep := by
  obtain ⟨-, -, -, hiteration, hbudget⟩ := r.counted_worked
  change r.worked.endIteration = r.worked.advanceStep
  rw [endIteration, hbudget, hiteration, if_pos hlast]

/-- No step with a budget is passed over. -/
theorem advanceStep_eq_enterStep {r : Run K} (hstep : r.step ≠ .done)
    (hnext : r.step.next ≠ .done) (hpos : 0 < r.budgetFor r.step.next) :
    r.advanceStep = r.leaveStep.enterStep r.step.next := by
  have hbudget : (r.leaveStep.enterStep r.step.next).stepBudget = r.budgetFor r.step.next :=
    budgetFor_congr r.options_leaveStep _
  have hgoes : (r.leaveStep.enterStep r.step.next).step ≠ .done := hnext
  rw [advanceStep, advanceStepBy]
  dsimp only
  rw [step_leaveStep, if_neg hstep, if_neg hgoes, hbudget, if_pos hpos]

/-! ## Preparation -/

theorem seedNodes_eq (r : Run K) :
    ∃ d random, r.seedNodes = { r with drawing := d, random := random } := by
  unfold seedNodes
  dsimp only
  exact ⟨_, _, rfl⟩

/-- The run with its rings arranged and placed. -/
def placed (r : Run K) : Run K :=
  let r := if r.options.randomize then r.seedNodes else r
  let d := placeRings r.drawing r.options
  { r with drawing := d, connected := d.rootIsConnected }

theorem placed_eq (r : Run K) : ∃ d random connected, r.placed =
    { r with drawing := d, random := random, connected := connected } := by
  obtain ⟨d, random, hseed⟩ := r.seedNodes_eq
  unfold placed
  rw [hseed]
  split <;> exact ⟨_, _, _, rfl⟩

/-- The run at the beginning of its simulation. -/
def begun (r : Run K) : Run K := { r.placed with stage := .simulating }.enterStep .settle

/-- The preparation by what it makes of a run that has just been created. -/
theorem prerun_eq (r : Run K) : r.prerun =
    if r.stage ≠ .created then r
    else if r.options.quality = .draft && !r.options.randomize then
      { r.finish with
        diagnostics := r.diagnostics ++ [.draftWithoutRandomize]
        keepsPositions := true }
    else if r.placed.options.quality = .draft then r.placed.finish
    else if r.begun.stepBudget = 0 then r.begun.advanceStep
    else r.begun := rfl

theorem prerun_of_ne {r : Run K} (h : r.stage ≠ .created) : r.prerun = r := by
  rw [prerun, if_pos h]

/-- A draft that may not move anything ends at once, any other draft with the rings placed. All
other runs begin their simulation, and go on from the first step if it has no budget. -/
theorem prerun_cases {r : Run K} (h : r.stage = .created) :
    (r.options.quality = .draft ∧ r.prerun =
      { r.finish with
        diagnostics := r.diagnostics ++ [.draftWithoutRandomize]
        keepsPositions := true }) ∨
    (r.options.quality = .draft ∧ r.prerun = r.placed.finish) ∨
    (r.options.quality ≠ .draft ∧
      (r.prerun = r.begun ∧ 0 < r.begun.stepBudget ∨
        r.prerun = r.begun.advanceStep ∧ r.begun.stepBudget = 0)) := by
  have hoptions : r.placed.options = r.options := by
    obtain ⟨d, random, connected, hplaced⟩ := r.placed_eq
    rw [hplaced]
  rw [prerun_eq, if_neg (not_not_intro h), hoptions]
  split
  next hkeep =>
    exact Or.inl ⟨of_decide_eq_true (Bool.and_eq_true_iff.mp hkeep).1, rfl⟩
  next =>
    split
    next hdraft => exact Or.inr (Or.inl ⟨hdraft, rfl⟩)
    next hdraft =>
      refine Or.inr (Or.inr ⟨hdraft, ?_⟩)
      split
      next hzero => exact Or.inr ⟨rfl, hzero⟩
      next hpos => exact Or.inl ⟨rfl, Nat.pos_of_ne_zero hpos⟩

/-- The preparation leads out of the first stage. -/
theorem prerun_stage_ne (r : Run K) : r.prerun.stage ≠ .created := by
  by_cases hstage : r.stage = .created
  · rcases prerun_cases hstage with ⟨-, heq⟩ | ⟨-, heq⟩ | ⟨-, ⟨heq, -⟩ | ⟨heq, -⟩⟩
    · rw [heq]
      exact Stage.noConfusion
    · rw [heq]
      exact Stage.noConfusion
    · rw [heq]
      exact Stage.noConfusion
    · rw [heq]
      rcases (advanced_advanceStep (r := r.begun) rfl Step.noConfusion).next with
        ⟨hnext, -⟩ | ⟨hnext, -⟩ <;> rw [hnext] <;> exact Stage.noConfusion
  · rwa [prerun_of_ne hstage]

/-! ## Packing -/

/-- A drawing packed, tiled, and moved back to where it came from. -/
def packed (o : Options K) (center : Option (Point K)) (d : Drawing K) : Drawing K :=
  let d := if o.packComponents then (d.packComponents o.effectiveEdgeLength).2 else d
  let d := if o.tile then d.tileIsolated o.tilingPaddingHorizontal o.tilingPaddingVertical else d
  match center with
  | some center => d.centerOn center
  | none => d

/-- The end of a run by what it makes of a run that has been prepared and is not at its end. -/
theorem postrun_eq (r : Run K) : r.postrun =
    if r.stage = .created ∨ r.stage = .postProcessed then r
    else if r.keepsPositions then { r with stage := .postProcessed }
    else { r with
      stage := .postProcessed
      drawing := packed r.options r.initialCenter r.drawing } := by
  unfold postrun
  cases r.stage <;> rfl

end Run

end RingLayout
