import RingLayout.Proofs.Schedule
import RingLayout.Proofs.Untangling

/-! # Crossings in an iteration

Motion, reversals and most changes of step keep the crossings of all rings. An iteration lowers
them only in the step of the exchanges, by a round of exchanges or, when this step is left, by
members that go inside.
-/

namespace RingLayout.Run

open Skeleton (Reseats Untangles)

variable {K : Type} [Scalar K] {members : Nat → List Nat} {r : Run K}

/-! ## Going from step to step -/

theorem skeleton_prepareFor (o : Options K) (s : Step) (d : Drawing K) :
    (prepareFor o s d).skeleton = d.skeleton := by
  cases s with
  | reverse => exact d.skeleton_observeOrders _
  | exchange => exact d.skeleton_refreshExchanges
  | polish => exact d.skeleton_assignIdealLengths o _
  | _ => rfl

theorem skeleton_enterStep (r : Run K) (s : Step) :
    (r.enterStep s).drawing.skeleton = r.drawing.skeleton :=
  skeleton_prepareFor r.options s r.drawing

theorem leaveStep_of_ne (h : r.step ≠ .exchange) : r.leaveStep = r := by
  rw [leaveStep, if_neg]
  simp [h]

theorem untangles_leaveStep (h : r.drawing.skeleton.Seated members) :
    Untangles members r.drawing.skeleton r.leaveStep.drawing.skeleton := by
  unfold leaveStep
  split
  · exact Drawing.untangles_relocateInside h _ _
  · exact .refl h

theorem untangles_advanceStepBy (fuel : Nat) (r : Run K) (h : r.drawing.skeleton.Seated members) :
    Untangles members r.drawing.skeleton (advanceStepBy fuel r).drawing.skeleton := by
  induction fuel generalizing r with
  | zero => exact .refl h
  | succ fuel ih =>
      have hleave := untangles_leaveStep h
      have henter := hleave
      rw [← r.leaveStep.skeleton_enterStep r.leaveStep.step.next] at henter
      rw [advanceStepBy]
      dsimp only
      split
      · exact hleave
      · split
        · exact henter
        · split
          · exact henter
          · exact henter.trans (ih _ henter.seated)

theorem untangles_advanceStep (h : r.drawing.skeleton.Seated members) :
    Untangles members r.drawing.skeleton r.advanceStep.drawing.skeleton :=
  untangles_advanceStepBy 6 r h

/-- A run that has not yet come to the exchanges does not pass them over if they have a budget. -/
theorem skeleton_advanceStepBy (fuel : Nat) (r : Run K) (hstep : r.step ≠ .exchange)
    (hbudget : r.step.rank < Step.exchange.rank → 0 < r.budgetFor .exchange) :
    (advanceStepBy fuel r).drawing.skeleton = r.drawing.skeleton := by
  induction fuel generalizing r with
  | zero => rfl
  | succ fuel ih =>
      rw [advanceStepBy, leaveStep_of_ne hstep]
      dsimp only
      split
      · rfl
      next hdone =>
        have hnext := Step.rank_next hdone
        split
        · exact skeleton_enterStep r _
        · split
          · exact skeleton_enterStep r _
          next hzero =>
            rw [ih, skeleton_enterStep]
            -- only a step without budget is passed over
            · intro hexchange
              have hrank : r.step.next.rank = Step.exchange.rank := congrArg Step.rank hexchange
              have hpos := hbudget (by omega)
              rw [← (hexchange : r.step.next = .exchange)] at hpos
              exact hzero hpos
            · intro hlt
              refine hbudget (Nat.lt_trans ?_ hlt)
              rw [enterStep, hnext]
              exact Nat.lt_succ_self _

/-- Leaving the exchanges takes members inside, and the steps that follow take no more. -/
theorem skeleton_advanceStep_of_exchange (hstep : r.step = .exchange) :
    r.advanceStep.drawing.skeleton = r.leaveStep.drawing.skeleton := by
  have hleave : r.leaveStep.step = .exchange := r.step_leaveStep.trans hstep
  rw [advanceStep, advanceStepBy, hleave]
  dsimp only
  rw [if_neg Step.noConfusion, if_neg Step.noConfusion]
  split
  · exact skeleton_enterStep _ _
  · have hpast : ¬Step.polish.rank < Step.exchange.rank := by decide
    rw [skeleton_advanceStepBy 5 _ Step.noConfusion fun hlt => absurd hlt hpast]
    exact skeleton_enterStep _ _

/-! ## One iteration -/

/-- The run in an iteration, before any exchange. -/
def turned (r : Run K) : Run K := r.countIteration.moveBodies.reverseRings

theorem skeleton_moveBodies (r : Run K) : r.moveBodies.drawing.skeleton = r.drawing.skeleton := by
  unfold moveBodies
  dsimp only
  rw [Drawing.skeleton_move, Drawing.skeleton_gatherForces]
  split
  · exact r.drawing.skeleton_refreshExchanges
  · rfl

theorem crossings_reverseRings (h : r.drawing.skeleton.Seated members) :
    Reseats members r.drawing.skeleton r.reverseRings.drawing.skeleton ∧
      r.reverseRings.drawing.skeleton.crossings = r.drawing.skeleton.crossings := by
  unfold reverseRings
  split
  · exact Drawing.crossings_tryReverses h _
  · exact ⟨.refl h, rfl⟩

/-- Motion and reversals keep the crossings. -/
theorem crossings_turned (h : r.drawing.skeleton.Seated members) :
    Reseats members r.drawing.skeleton r.turned.drawing.skeleton ∧
      r.turned.drawing.skeleton.crossings = r.drawing.skeleton.crossings := by
  have hmove : r.countIteration.moveBodies.drawing.skeleton = r.drawing.skeleton :=
    r.countIteration.skeleton_moveBodies
  rw [← hmove] at h ⊢
  exact crossings_reverseRings h

theorem exchangeNeighbors_drawing (h : r.phase = .carryOut) :
    r.exchangeNeighbors.drawing = (r.drawing.performExchanges r.memory).2.1 := by
  rw [exchangeNeighbors, if_pos h]

theorem untangles_exchangeNeighbors (h : r.drawing.skeleton.Seated members) :
    Untangles members r.drawing.skeleton r.exchangeNeighbors.drawing.skeleton := by
  by_cases hphase : r.phase = .carryOut
  · rw [exchangeNeighbors_drawing hphase]
    exact Drawing.untangles_performExchanges h r.memory
  · rw [exchangeNeighbors, if_neg hphase]
    exact .refl h

theorem untangles_worked (h : r.drawing.skeleton.Seated members) :
    Untangles members r.drawing.skeleton r.worked.drawing.skeleton := by
  obtain ⟨hturned, hcrossings⟩ := crossings_turned h
  have hexchange := untangles_exchangeNeighbors hturned.seated
  refine ⟨hturned.trans hexchange.toReseats, fun c => ?_⟩
  rw [← hcrossings]
  exact hexchange.crossings_le c

/-- An iteration gives the run in which its work is done, or that run goes on to another step. -/
theorem exists_worked (r : Run K) : ∃ w : Run K, w.drawing = r.worked.drawing ∧
    w.step = r.step ∧ w.stage = r.stage ∧ w.options = r.options ∧
      (r.iterate = w ∨ r.iterate = w.advanceStep) := by
  have hsame := r.counted_worked
  have hcases := r.iterate_cases
  generalize r.worked = w at *
  rcases hcases with ⟨x, heq, -⟩ | ⟨x, heq, -⟩
  · exact ⟨{ w with oldDisplacement := x }, rfl, hsame.step_eq, hsame.stage_eq, hsame.options_eq,
      Or.inl heq⟩
  · exact ⟨{ w with oldDisplacement := x }, rfl, hsame.step_eq, hsame.stage_eq, hsame.options_eq,
      Or.inr heq⟩

theorem untangles_iterate (h : r.drawing.skeleton.Seated members) :
    Untangles members r.drawing.skeleton r.iterate.drawing.skeleton := by
  have hworked := untangles_worked h
  obtain ⟨w, hdrawing, -, -, -, heq | heq⟩ := r.exists_worked
  · rw [heq, hdrawing]
    exact hworked
  · rw [← hdrawing] at hworked
    rw [heq]
    exact hworked.trans (untangles_advanceStep hworked.seated)

theorem turned_eq (r : Run K) : r.turned.step = r.step ∧ r.turned.memory = r.memory := by
  unfold turned
  rw [reverseRings_eq]
  exact ⟨rfl, rfl⟩

/-- Without a round of exchanges an iteration keeps the crossings until its step ends. -/
theorem crossings_worked (h : r.drawing.skeleton.Seated members)
    (hphase : r.turned.phase ≠ .carryOut) :
    r.worked.drawing.skeleton.crossings = r.drawing.skeleton.crossings := by
  have hworked : r.worked = r.turned := by
    change r.turned.exchangeNeighbors = r.turned
    rw [exchangeNeighbors, if_neg hphase]
  rw [hworked]
  exact (crossings_turned h).2

/-- The first iterations of a step come before its first test for reversal and its first round of
exchanges. They change no order. -/
theorem skeleton_worked (hearly : r.stepIteration < 24) :
    r.worked.drawing.skeleton = r.drawing.skeleton := by
  have hreverse : r.countIteration.moveBodies.reverseRings = r.countIteration.moveBodies := by
    have hcount : r.countIteration.moveBodies.stepIteration = r.stepIteration + 1 := rfl
    rw [reverseRings, hcount, if_neg]
    rintro ⟨-, hperiod⟩
    rw [reversalPeriod, Nat.mod_eq_of_lt (by omega)] at hperiod
    exact Nat.succ_ne_zero _ hperiod
  have hphase : r.turned.phase ≠ .carryOut := by
    have hmod : (r.stepIteration + 1 - 1) % 25 = r.stepIteration := by omega
    rw [turned, hreverse]
    change (if r.step = .exchange then ExchangePhase.ofIteration (r.stepIteration + 1)
      else .idle) ≠ .carryOut
    unfold ExchangePhase.ofIteration
    dsimp only
    rw [hmod]
    repeat' split
    all_goals exact ExchangePhase.noConfusion
  change r.turned.exchangeNeighbors.drawing.skeleton = r.drawing.skeleton
  rw [exchangeNeighbors, if_neg hphase, turned, hreverse]
  exact r.countIteration.skeleton_moveBodies

/-- An iteration of another step than that of the exchanges keeps the crossings. -/
theorem crossings_iterate (h : r.drawing.skeleton.Seated members) (hstep : r.step ≠ .exchange)
    (hbudget : 0 < r.budgetFor .exchange) :
    r.iterate.drawing.skeleton.crossings = r.drawing.skeleton.crossings := by
  have hphase : r.turned.phase ≠ .carryOut := by
    rw [phase, r.turned_eq.1, if_neg hstep]
    exact ExchangePhase.noConfusion
  have hworked := crossings_worked h hphase
  obtain ⟨w, hdrawing, hsame, -, hoptions, heq | heq⟩ := r.exists_worked
  · rw [heq, hdrawing]
    exact hworked
  · rw [heq, advanceStep, skeleton_advanceStepBy, hdrawing]
    · exact hworked
    · rw [hsame]
      exact hstep
    · intro _
      rw [budgetFor_congr hoptions]
      exact hbudget

/-- If a ring has fewer crossings after the exchanges are left, members have gone inside. -/
theorem relocated_of_lt (hstep : r.step = .exchange) {c : Nat}
    (hlt : r.advanceStep.drawing.crossingCount c < r.drawing.crossingCount c) :
    r.options.allowInside = true ∧
      (r.drawing.relocateInside r.options.effectiveInsideRatio
        r.options.effectiveSeparation).2.crossingCount c < r.drawing.crossingCount c := by
  rw [Drawing.crossingCount_eq, skeleton_advanceStep_of_exchange hstep,
    ← Drawing.crossingCount_eq] at hlt
  unfold leaveStep at hlt
  split at hlt
  next hinside => exact ⟨(Bool.and_eq_true_iff.mp hinside).2, hlt⟩
  next => exact absurd hlt (Nat.lt_irrefl _)

/-- What an iteration must have done if a ring has fewer crossings after it: a round of exchanges,
or it has left the step of the exchanges and has moved members inside. -/
def Untangled (r : Run K) (c : Nat) : Prop :=
  r.step = .exchange ∧
    (r.turned.phase = .carryOut ∧
        (r.turned.drawing.performExchanges r.memory).2.1.crossingCount c <
          r.turned.drawing.crossingCount c ∨
      r.iterate.step ≠ .exchange ∧ r.options.allowInside = true ∧
        (r.worked.drawing.relocateInside r.options.effectiveInsideRatio
            r.options.effectiveSeparation).2.crossingCount c <
          r.worked.drawing.crossingCount c)

theorem crossingCount_turned (h : r.drawing.skeleton.Seated members) (c : Nat) :
    r.turned.drawing.crossingCount c = r.drawing.crossingCount c := by
  rw [Drawing.crossingCount_eq, Drawing.crossingCount_eq, (crossings_turned h).2]

theorem untangled_of_lt (h : r.drawing.skeleton.Seated members)
    (hbudget : 0 < r.budgetFor .exchange) (hstage : r.stage = .simulating) {c : Nat}
    (hlt : r.iterate.drawing.crossingCount c < r.drawing.crossingCount c) : r.Untangled c := by
  have hexchange : r.step = .exchange := by
    by_contra hne
    rw [Drawing.crossingCount_eq, Drawing.crossingCount_eq, crossings_iterate h hne hbudget] at hlt
    exact Nat.lt_irrefl _ hlt
  refine ⟨hexchange, ?_⟩
  by_cases hworked : r.worked.drawing.crossingCount c < r.drawing.crossingCount c
  · have hphase : r.turned.phase = .carryOut := by
      by_contra hne
      rw [Drawing.crossingCount_eq, Drawing.crossingCount_eq, crossings_worked h hne] at hworked
      exact Nat.lt_irrefl _ hworked
    refine Or.inl ⟨hphase, ?_⟩
    change r.turned.exchangeNeighbors.drawing.crossingCount c < _ at hworked
    rw [exchangeNeighbors_drawing hphase, r.turned_eq.2] at hworked
    rw [crossingCount_turned h]
    exact hworked
  · have hleft : r.iterate.drawing.crossingCount c < r.worked.drawing.crossingCount c :=
      Nat.lt_of_lt_of_le hlt (Nat.le_of_not_lt hworked)
    obtain ⟨w, hdrawing, hsame, hstage', hoptions, heq | heq⟩ := r.exists_worked
    · rw [heq, hdrawing] at hleft
      exact absurd hleft (Nat.lt_irrefl _)
    · have hstep : w.step = .exchange := hsame.trans hexchange
      have hadvanced := advanced_advanceStep (hstage'.trans hstage)
        fun hdone => by cases hstep.symm.trans hdone
      have hrank := hadvanced.rank_lt
      rw [← heq, hstep] at hrank
      rw [heq, ← hdrawing] at hleft
      obtain ⟨hinside, hfewer⟩ := relocated_of_lt hstep hleft
      rw [hoptions, hdrawing] at hfewer
      rw [hoptions] at hinside
      refine Or.inr ⟨fun hstays => ?_, hinside, hfewer⟩
      rw [hstays] at hrank
      exact Nat.lt_irrefl _ hrank

end RingLayout.Run
