import RingLayout.Proofs.Interior
import RingLayout.Proofs.Lengths

/-! # Members inside rings, from their going inside to the end

Nobody is inside a ring until members go inside, and these are drawn back at once. From then on a
run only moves bodies by forces, which draws everybody inside back, and packs the drawing, which
takes everybody along with the rings.
-/

namespace RingLayout.Run

open Drawing (KeptInside keptInside_of_nil)

variable {members : Nat → List Nat} {o : Options ℝ} {built d d' : Drawing ℝ} {r : Run ℝ}

/-- A sound drawing in which all members inside rings keep clear of the circles. -/
structure Sheltered (members : Nat → List Nat) (d : Drawing ℝ) : Prop where
  sound : d.skeleton.Sound members
  kept : ∀ c, KeptInside d c

namespace Sheltered

theorem of_vacant (hd : d.skeleton.Sound members) (h : Drawing.Vacant d) : Sheltered members d :=
  ⟨hd, fun c => keptInside_of_nil (h.ring_inside c)⟩

theorem of_figure (h : Sheltered members d) (hfigure : d'.figure = d.figure) :
    Sheltered members d' where
  sound := by
    rw [show d'.skeleton = d.skeleton from congrArg Figure.skeleton hfigure]
    exact h.sound
  kept c := (h.kept c).of_figure hfigure

/-- Moving draws everybody inside back, wherever they have been. -/
theorem move (hd : d.skeleton.Sound members) (cooling : ℝ) (gather : Bool) :
    Sheltered members (d.move cooling gather).1 where
  sound := by
    rw [Drawing.skeleton_move]
    exact hd
  kept := Drawing.keptInside_move hd cooling gather

theorem leaveStep (h : Sheltered members r.drawing) : Sheltered members r.leaveStep.drawing where
  sound := (secludes_leaveStep h.sound).sound
  kept c := by
    unfold Run.leaveStep
    split
    · exact Drawing.keptInside_relocateInside h.sound h.kept _ _ c
    · exact h.kept c

/-- A step is left for the next one. -/
theorem next (h : Sheltered members r.drawing) :
    Sheltered members (r.leaveStep.enterStep r.leaveStep.step.next).drawing :=
  h.leaveStep.of_figure (figure_prepareFor _ _ _)

/-- On the way to a step with a budget, and at its end. -/
theorem advanceStep (h : Sheltered members r.drawing) (hstage : r.stage = .simulating)
    (hstep : r.step ≠ .done) : (∀ w ∈ leavings 6 r, Sheltered members w.leaveStep.drawing) ∧
      Sheltered members r.advanceStep.drawing := by
  apply advanceStepBy_induct (P := fun ws r => (∀ w ∈ ws, Sheltered members w.leaveStep.drawing) ∧
    Sheltered members r.drawing) 6 [] hstage hstep
  case h => exact ⟨fun w hw => absurd hw List.not_mem_nil, h⟩
  case hnext =>
    rintro ws r - - ⟨hleft, h⟩
    refine ⟨fun w hw => ?_, h.next⟩
    rcases List.mem_append.mp hw with hold | hnew
    · exact hleft w hold
    · rw [List.mem_singleton.mp hnew]
      exact h.leaveStep
  case hover =>
    rintro ws r r' - hdrawing - ⟨hleft, h⟩
    exact ⟨hleft, hdrawing.symm ▸ h⟩

/-- Parts of a drawing are packed as wholes, and rings are not set aside. -/
theorem packed (hproper : Drawing.Proper members d) (h : Sheltered members d) (o : Options ℝ)
    (center : Option (Point ℝ)) : Sheltered members (packed o center d) := by
  have hpacked : Sheltered members
      (if o.packComponents then (d.packComponents o.effectiveEdgeLength).2 else d) := by
    split
    · refine ⟨?_, fun c => hproper.keptInside_packComponents (h.kept c) _⟩
      rw [Drawing.skeleton_packComponents]
      exact h.sound
    · exact h
  have htiled : ∀ d, Sheltered members d → Sheltered members (if o.tile then
      d.tileIsolated o.tilingPaddingHorizontal o.tilingPaddingVertical else d) := by
    intro d hd
    split
    · refine ⟨?_, fun c => Drawing.keptInside_tileIsolated hd.sound (hd.kept c) _ _⟩
      rw [Drawing.skeleton_tileIsolated]
      exact hd.sound
    · exact hd
  have h := htiled _ hpacked
  cases center with
  | some target =>
      refine ⟨?_, fun c => Drawing.keptInside_centerOn h.sound (h.kept c) target⟩
      exact (Drawing.motions_centerOn (S := fun _ => True) _ target).sound h.sound
  | none => exact h

theorem postrun (hproper : Drawing.Proper members r.drawing) (h : Sheltered members r.drawing) :
    Sheltered members r.postrun.drawing := by
  rw [postrun_eq]
  split
  · exact h
  · split
    · exact h
    · exact packed hproper h r.options r.initialCenter

end Sheltered

/-! ## Iterations -/

theorem worked_of_polish {K : Type} [Scalar K] {r : Run K} (hstep : r.step = .polish) :
    r.worked = r.countIteration.moveBodies := by
  have hsame : r.countIteration.moveBodies.step = .polish := hstep
  have hreverse : r.countIteration.moveBodies.reverseRings = r.countIteration.moveBodies := by
    rw [reverseRings, hsame]
    rfl
  rw [worked, hreverse, exchangeNeighbors, phase, hsame]
  rfl

theorem sheltered_moveBodies (hd : r.drawing.skeleton.Sound members) :
    Sheltered members r.moveBodies.drawing := by
  have hrefresh : (if r.phase = .beginGathering then r.drawing.refreshExchanges
      else r.drawing).skeleton.Sound members := by
    split
    · rw [Drawing.skeleton_refreshExchanges]
      exact hd
    · exact hd
  apply Sheltered.move
  rw [Drawing.skeleton_gatherForces]
  exact hrefresh

variable {ws : List (Run ℝ)}

/-- Until the last step nobody is inside, and then everybody inside is drawn back. -/
theorem Recorded.sheltered_worked (h : Recorded members o built ws r)
    (hstage : r.stage = .simulating) (hstep : r.step ≠ .done) :
    Sheltered members r.worked.drawing := by
  by_cases hpolish : r.step = .polish
  · rw [worked_of_polish hpolish]
    exact sheltered_moveBodies (r := r.countIteration) h.secludes.sound
  · have hrank : r.step.rank ≤ Step.exchange.rank := by
      revert hpolish hstep
      cases r.step <;> simp [Step.rank]
    have hkeeps := keeps_worked Drawing.steady_standing Drawing.hidesRules_standing r
      Drawing.hidesPulls_standing
    have hvacant := (h.pending hstage hrank).2.toVacant.congr hkeeps.toAlike
    refine .of_vacant ?_ hvacant
    exact (evolves_worked h.secludes.sound).sound

/-- Everybody inside keeps clear of the circles in a run, and was drawn back to do so whenever a
step was left. -/
structure Contained (members : Nat → List Nat) (o : Options ℝ) (built : Drawing ℝ)
    (ws : List (Run ℝ)) (r : Run ℝ) : Prop where
  recorded : Recorded members o built ws r
  sheltered : Sheltered members r.drawing
  left : ∀ w ∈ ws, Sheltered members w.leaveStep.drawing

namespace Contained

variable (h : Contained members o built ws r)
include h

theorem iterate (hstage : r.stage = .simulating) (hstep : r.step ≠ .done) :
    Contained members o built (ws ++ r.iterationLeavings) r.iterate := by
  have hrecorded := h.recorded.iterate hstage hstep
  have hworked := h.recorded.sheltered_worked hstage hstep
  obtain ⟨w, hdrawing, hsame, hstage', -, -, hcases⟩ := r.iterationLeavings_cases
  rw [← hdrawing] at hworked
  rcases hcases with ⟨heq, hnone⟩ | ⟨heq, hleft⟩
  · rw [hnone, List.append_nil] at hrecorded ⊢
    exact ⟨hrecorded, heq ▸ hworked, h.left⟩
  · obtain ⟨hway, hend⟩ := hworked.advanceStep (hstage'.trans hstage) (hsame ▸ hstep)
    refine ⟨hrecorded, heq ▸ hend, fun u hu => ?_⟩
    rcases List.mem_append.mp hu with hold | hnew
    · exact h.left u hold
    · exact hway u (hleft ▸ hnew)

end Contained

theorem contained_prerun (hcreated : r.stage = .created) (hd : r.drawing.skeleton.Sound members)
    (hvacant : Drawing.Vacant r.drawing) :
    Contained members r.options r.drawing r.prerunLeavings r.prerun := by
  have hrecorded := recorded_prerun hcreated hd hvacant
  obtain ⟨-, hstage, hstep, -⟩ := begun_eq r
  have hbegun : Sheltered members r.begun.drawing := by
    have hbegun := recorded_begun hd hvacant
    refine .of_vacant hbegun.secludes.sound (hbegun.pending hstage ?_).2.toVacant
    rw [hstep]
    decide
  rcases prerunLeavings_cases hcreated with ⟨-, hnone, -⟩ | ⟨heq, hnone⟩ | ⟨heq, hleft⟩
  -- without a simulation nobody goes inside
  · refine ⟨hrecorded, ?_, hnone ▸ fun w hw => absurd hw List.not_mem_nil⟩
    rcases hrecorded.passed with ⟨-, hnobody⟩ | ⟨w, hw, -⟩
    · exact .of_vacant hrecorded.secludes.sound hnobody
    · rw [hnone] at hw
      cases hw
  · exact ⟨hrecorded, heq ▸ hbegun, hnone ▸ fun w hw => absurd hw List.not_mem_nil⟩
  · obtain ⟨hway, hend⟩ := hbegun.advanceStep hstage (hstep ▸ Step.noConfusion)
    exact ⟨hrecorded, heq ▸ hend, hleft ▸ hway⟩

/-! ## All of a run -/

theorem lasting_contained {g : Graph ℝ} (hbuild : Drawing.build g o = .ok built) (start : Run ℝ) :
    Lasting o (fun c => (built.ring c).order) built fun qs r =>
      Contained (fun c => (built.ring c).order) o built (start.leftAfter qs) r where
  iterate qs r hinformed _ hstage h := by
    rw [leftAfter_concat]
    exact h.iterate hstage (hinformed.step_ne_done hstage)
  stop qs r hinformed hdescends hstage h :=
    ⟨(lasting_recorded start).stop qs r hinformed hdescends hstage h.recorded, h.sheltered, h.left⟩
  postrun qs r hinformed hdescends hcreated h := by
    have hproper := (Drawing.proper_build hbuild).of_course hdescends.moves
    exact ⟨(lasting_recorded start).postrun qs r hinformed hdescends hcreated h.recorded,
      h.sheltered.postrun hproper, h.left⟩

/-- The members inside rings keep clear of the circles in all of a run. -/
structure KeepsInside (start : Run ℝ) : Prop where
  /-- In all states that a caller sees. -/
  afterAll : ∀ calls c, KeptInside (start.afterAll calls).drawing c
  /-- Where iterations begin, and where they end. -/
  iterate : ∀ calls, ∀ q ∈ start.starts calls, ∀ c,
    KeptInside q.drawing c ∧ KeptInside q.iterate.drawing c
  /-- As soon as members have gone inside, which they do when steps are left. -/
  leaveStep : ∀ calls, ∀ w ∈ start.leftSteps calls, ∀ c, KeptInside w.leaveStep.drawing c
  /-- When the bodies of a drawing of the run are moved by any forces. -/
  move : ∀ d, start.Visits d → ∀ d' : Drawing ℝ, d'.unforced = d.unforced →
    ∀ cooling gather c, KeptInside (d'.move cooling gather).1 c

/-- In exact arithmetic, whoever has gone inside a ring of a run keeps clear of its circle until
the end. -/
theorem keepsInside {g : Graph ℝ} {o : Options ℝ} {start : Run ℝ} (h : create g o = .ok start) :
    KeepsInside start := by
  obtain ⟨built, hbuild, rfl⟩ := create_eq_ok h
  have hsound := Drawing.sound_build hbuild
  have hvacant := vacant_build hbuild
  have hlasting := lasting_contained hbuild (ofDrawing built o)
  have hprepared : Contained (fun c => (built.ring c).order) o built
      ((ofDrawing built o).leftAfter []) (ofDrawing built o).prerun := by
    rw [leftAfter_nil]
    exact contained_prerun (r := ofDrawing built o) rfl hsound hvacant
  have hrecord := hlasting.afterAll hbuild hprepared
  constructor
  case afterAll =>
    intro calls c
    rcases (hrecord calls).1 with hsame | ⟨-, hcontained⟩
    · rw [hsame]
      exact keptInside_of_nil (hvacant.ring_inside c)
    · exact hcontained.holds.sheltered.kept c
  case iterate =>
    intro calls q hq c
    obtain ⟨first, later, heq⟩ := List.append_of_mem hq
    obtain ⟨hstage, hcontained⟩ := (hrecord calls).2 first q later heq
    exact ⟨hcontained.holds.sheltered.kept c,
      (hcontained.iterate hlasting hsound hstage).holds.sheltered.kept c⟩
  case leaveStep =>
    intro calls w hw c
    rcases (hrecord calls).1 with hsame | ⟨hcreated, hcontained⟩
    · rw [leftSteps, hsame] at hw
      exact absurd hw List.not_mem_nil
    · rw [leftSteps, if_neg hcreated] at hw
      exact (hcontained.holds.left w hw).kept c
  case move =>
    intro d hd d' hforces cooling gather c
    have hskeleton : d'.skeleton = d.skeleton := by
      rw [← Drawing.skeleton_unforced, hforces, Drawing.skeleton_unforced]
    have hd := (hd.moves hsound).sound hsound
    rw [← hskeleton] at hd
    exact Drawing.keptInside_move hd cooling gather c

/-- One of the four members of the tangle's ring goes inside on the way. -/
theorem keepsInside_tangle : ∃ start : Run ℝ,
    create Drawing.tangle (Drawing.tangledRing 10) = .ok start ∧ KeepsInside start ∧
      ∃ calls, (start.afterAll calls).stage = .simulating ∧
        ((start.afterAll calls).drawing.ring 0).inside = [0] := by
  have hcreate := create_of_build (Drawing.build_tangle 10)
  obtain ⟨calls, hpolish⟩ := exists_calls_tangled
  exact ⟨_, hcreate, keepsInside hcreate, .prerun :: calls, hpolish.stage_eq,
    congrArg (fun s => (s.ring 0).inside) hpolish.skeleton_eq⟩

end RingLayout.Run
