import RingLayout.Proofs.Scalar.Real
import RingLayout.Proofs.Lifecycle
import RingLayout.Proofs.Seating.Operations
import RingLayout.Proofs.Untangling.Iteration

/-! # The beginning of a run

The preparation of a run puts its rings into other orders, and rings that have been arranged before
keep theirs. The first iterations of a step come before any test for reversal and any round of
exchanges. So a run with few iterations goes through its steps with the orders that it was prepared
with, until the exchanges are left and members go inside. Four nodes that are all linked have such a
run, which loses a crossing at its end.
-/

namespace RingLayout

namespace Run

open Skeleton (Reseats)

variable {K : Type} [Scalar K] {members : Nat → List Nat} {r : Run K}

/-! ## The preparation -/

/-- A drawing with all its rings arranged. -/
def arrangeAll (d : Drawing K) (separation : K) : Drawing K :=
  Operation.run (d.ringNumbers.map (.arrange · separation)) d

/-- Hubs are seeded, all rings arranged, links get their lengths, and roots are placed. -/
theorem placeRings_eq (d : Drawing K) (o : Options K) : placeRings d o =
    let arranged := arrangeAll (d.ringNumbers.foldl seedHub d) o.effectiveSeparation
    let stretched := arranged.assignIdealLengths o 1.0
    (Placement.ofDrawing stretched o).run.apply stretched := by
  have harrange : ∀ (rings : List Nat) (d : Drawing K),
      rings.foldl (fun d c => arrangeRing d c o.effectiveSeparation) d =
        Operation.run (rings.map (.arrange · o.effectiveSeparation)) d := by
    intro rings d
    rw [Operation.run, List.foldl_map]
    rfl
  unfold placeRings
  dsimp only
  rw [harrange]
  rfl

theorem reseats_placeRings {d : Drawing K} (h : d.skeleton.Seated members) (o : Options K) :
    Reseats members d.skeleton (placeRings d o).skeleton := by
  have hhubs := foldl_eq_of_step_eq Drawing.skeleton skeleton_seedHub d.ringNumbers d
  rw [← hhubs] at h ⊢
  rw [placeRings_eq]
  dsimp only
  rw [Placement.skeleton_apply, Drawing.skeleton_assignIdealLengths]
  exact Operation.reseats_run h _

theorem reseats_placed (h : r.drawing.skeleton.Seated members) :
    Reseats members r.drawing.skeleton r.placed.drawing.skeleton := by
  unfold placed
  dsimp only
  split
  · have hseed := skeleton_seedNodes r
    rw [← hseed] at h ⊢
    exact reseats_placeRings h _
  · exact reseats_placeRings h _

theorem skeleton_begun (r : Run K) : r.begun.drawing.skeleton = r.placed.drawing.skeleton := by
  unfold begun
  generalize r.placed = w
  exact skeleton_enterStep { w with stage := .simulating } .settle

theorem reseats_begun (h : r.drawing.skeleton.Seated members) :
    Reseats members r.drawing.skeleton r.begun.drawing.skeleton := by
  rw [skeleton_begun]
  exact reseats_placed h

omit [Scalar K] in
theorem drawing_finish (r : Run K) : r.finish.drawing = r.drawing := rfl

theorem reseats_prerun (h : r.drawing.skeleton.Seated members) :
    Reseats members r.drawing.skeleton r.prerun.drawing.skeleton := by
  have hbegun := reseats_begun h
  by_cases hstage : r.stage = .created
  · rcases prerun_cases hstage with ⟨-, heq⟩ | ⟨-, heq⟩ | ⟨-, ⟨heq, -⟩ | ⟨heq, -⟩⟩ <;> rw [heq]
    · exact .refl h
    · rw [drawing_finish]
      exact reseats_placed h
    · exact hbegun
    · exact hbegun.trans (untangles_advanceStep hbegun.seated).toReseats
  · rw [prerun_of_ne hstage]
    exact .refl h

theorem seated_prerun (h : r.drawing.skeleton.Seated members) :
    r.prerun.drawing.skeleton.Seated members :=
  (reseats_prerun h).seated

/-! ## Rings that have been arranged before -/

theorem skeleton_placeRings {d : Drawing K} (h : d.skeleton.Seated members)
    (harranged : ∀ c ∈ d.ringNumbers, d.arrangedOrder c = (d.ring c).order) (o : Options K) :
    (placeRings d o).skeleton = d.skeleton := by
  have harrange : ∀ e : Drawing K, e.skeleton = d.skeleton → ∀ c ∈ d.ringNumbers,
      (arrangeRing e c o.effectiveSeparation).skeleton = d.skeleton := by
    intro e he c hc
    have hseated : e.skeleton.Seated members := he.symm ▸ h
    have horder : e.arrangedOrder c = (e.ring c).order := by
      rw [Drawing.arrangedOrder_congr he, harranged c hc]
      exact (congrArg (fun s => (s.ring c).order) he).symm
    calc (arrangeRing e c o.effectiveSeparation).skeleton
        = e.skeleton.reorder c (e.ring c).order := by
          rw [Drawing.skeleton_arrangeRing hseated, horder]
      _ = e.skeleton := hseated.reorder_self c
      _ = d.skeleton := he
  have hhubs := foldl_eq_of_step_eq Drawing.skeleton skeleton_seedHub d.ringNumbers d
  rw [placeRings_eq]
  dsimp only
  rw [Placement.skeleton_apply, Drawing.skeleton_assignIdealLengths, arrangeAll, Operation.run,
    List.foldl_map, Drawing.ringNumbers_congr hhubs]
  exact List.foldlRecOn (motive := fun e : Drawing K => e.skeleton = d.skeleton) d.ringNumbers _
    hhubs harrange

theorem skeleton_begun_of_arranged (h : r.drawing.skeleton.Seated members)
    (harranged : ∀ c ∈ r.drawing.ringNumbers,
      r.drawing.arrangedOrder c = (r.drawing.ring c).order) :
    r.begun.drawing.skeleton = r.drawing.skeleton := by
  rw [skeleton_begun]
  unfold placed
  dsimp only
  split
  · have hseed := skeleton_seedNodes r
    rw [skeleton_placeRings (hseed.symm ▸ h), hseed]
    intro c hc
    rw [Drawing.ringNumbers_congr hseed] at hc
    rw [Drawing.arrangedOrder_congr hseed, harranged c hc]
    exact (congrArg (fun s => (s.ring c).order) hseed).symm
  · exact skeleton_placeRings h harranged _

/-! ## Early iterations -/

/-- The number of iterations that options allow in a step. -/
def allowance (o : Options K) (s : Step) : Nat := Scalar.floorNat ((o.iterations : K) * s.share)

/-- A run has carried out `k` iterations of a step and goes on with it. -/
structure Amid (o : Options K) (sk : Skeleton) (s : Step) (k : Nat) (r : Run K) : Prop where
  options_eq : r.options = o
  stage_eq : r.stage = .simulating
  step_eq : r.step = s
  stepIteration_eq : r.stepIteration = k
  stepBudget_eq : r.stepBudget = allowance o s
  skeleton_eq : r.drawing.skeleton = sk

theorem amid_enterStep {o : Options K} (hoptions : r.options = o) (hstage : r.stage = .simulating)
    (s : Step) : Amid o r.drawing.skeleton s 0 (r.enterStep s) :=
  ⟨hoptions, hstage, rfl, rfl, hoptions ▸ rfl, skeleton_enterStep r s⟩

theorem amid_prerun (hcreated : r.stage = .created) (hquality : r.options.quality ≠ .draft)
    (hpos : 0 < allowance r.options .settle) (h : r.drawing.skeleton.Seated members)
    (harranged : ∀ c ∈ r.drawing.ringNumbers,
      r.drawing.arrangedOrder c = (r.drawing.ring c).order) :
    Amid r.options r.drawing.skeleton .settle 0 r.prerun := by
  have hoptions : r.placed.options = r.options := by
    obtain ⟨d, random, connected, heq⟩ := r.placed_eq
    rw [heq]
  have hbegun : Amid r.options r.placed.drawing.skeleton .settle 0 r.begun := by
    unfold begun
    generalize r.placed = w at hoptions ⊢
    exact amid_enterStep (r := { w with stage := .simulating }) hoptions rfl .settle
  rw [← skeleton_begun, skeleton_begun_of_arranged h harranged] at hbegun
  rcases prerun_cases hcreated with ⟨hdraft, -⟩ | ⟨hdraft, -⟩ | ⟨-, ⟨heq, -⟩ | ⟨-, hzero⟩⟩
  · exact absurd hdraft hquality
  · exact absurd hdraft hquality
  · rwa [heq]
  · rw [hbegun.stepBudget_eq] at hzero
    exact absurd hzero (Nat.ne_of_gt hpos)

namespace Amid

variable {o : Options K} {sk : Skeleton} {s : Step} {k : Nat}

/-- In the first 24 iterations of a step no order changes. -/
theorem skeleton_worked_eq (h : Amid o sk s k r) (hearly : k < 24) :
    r.worked.drawing.skeleton = sk :=
  (skeleton_worked (h.stepIteration_eq.symm ▸ hearly)).trans h.skeleton_eq

theorem iterate (h : Amid o sk s k r) (hearly : k < 24) (hmore : k + 1 < allowance o s)
    (hcycle : allowance o s ≤ Cooling.period) : Amid o sk s (k + 1) r.iterate := by
  have hcounted := r.counted_worked
  rw [← h.stepBudget_eq] at hmore hcycle
  rw [iterate_eq_worked (h.stepIteration_eq.symm ▸ hmore) hcycle]
  exact ⟨hcounted.options_eq.trans h.options_eq, hcounted.stage_eq.trans h.stage_eq,
    hcounted.step_eq.trans h.step_eq,
    hcounted.stepIteration_eq.trans (congrArg (· + 1) h.stepIteration_eq),
    hcounted.stepBudget_eq.trans h.stepBudget_eq, h.skeleton_worked_eq hearly⟩

/-- The last iteration of a step leads to the next one. -/
theorem iterate_eq (h : Amid o sk s k r) (hlast : allowance o s ≤ k + 1) (hnext : s.next ≠ .done)
    (hpos : 0 < allowance o s.next) : r.iterate = r.worked.leaveStep.enterStep s.next := by
  have hcounted := r.counted_worked
  have hstep : r.worked.step = s := hcounted.step_eq.trans h.step_eq
  have hdone : s ≠ .done := fun hdone => hnext (by rw [hdone]; rfl)
  have hbudget : r.worked.budgetFor s.next = allowance o s.next :=
    congrArg (allowance · s.next) (hcounted.options_eq.trans h.options_eq)
  rw [← h.stepBudget_eq] at hlast
  rw [iterate_eq_advanceStep (h.stepIteration_eq.symm ▸ hlast),
    advanceStep_eq_enterStep (hstep ▸ hdone) (hstep ▸ hnext), hstep]
  rwa [hstep, hbudget]

theorem next (h : Amid o sk s k r) (hearly : k < 24) (hlast : allowance o s ≤ k + 1)
    (hexchange : s ≠ .exchange) (hnext : s.next ≠ .done) (hpos : 0 < allowance o s.next) :
    Amid o sk s.next 0 r.iterate := by
  have hcounted := r.counted_worked
  have hstep : r.worked.step ≠ .exchange := (hcounted.step_eq.trans h.step_eq).symm ▸ hexchange
  rw [h.iterate_eq hlast hnext hpos, leaveStep_of_ne hstep, ← h.skeleton_worked_eq hearly]
  exact amid_enterStep (hcounted.options_eq.trans h.options_eq)
    (hcounted.stage_eq.trans h.stage_eq) _

/-- When the exchanges are left members go inside, if they may. -/
theorem polish (h : Amid o sk .exchange k r) (hearly : k < 24)
    (hlast : allowance o .exchange ≤ k + 1) (hinside : o.allowInside = true)
    (hpos : 0 < allowance o .polish) : ∃ d : Drawing K, d.skeleton = sk ∧
      Amid o (d.relocateInside o.effectiveInsideRatio o.effectiveSeparation).2.skeleton
        .polish 0 r.iterate := by
  have hcounted := r.counted_worked
  have hoptions := hcounted.options_eq.trans h.options_eq
  have hstep : r.worked.step = .exchange := hcounted.step_eq.trans h.step_eq
  have hleave : r.worked.leaveStep.drawing = (r.worked.drawing.relocateInside
      o.effectiveInsideRatio o.effectiveSeparation).2 := by
    rw [leaveStep, hoptions, hstep, hinside, if_pos (by rfl)]
  refine ⟨r.worked.drawing, h.skeleton_worked_eq hearly, ?_⟩
  rw [h.iterate_eq hlast Step.noConfusion hpos, ← hleave]
  exact amid_enterStep ((options_leaveStep _).trans hoptions)
    ((stage_leaveStep _).trans (hcounted.stage_eq.trans h.stage_eq)) .polish

/-! ## From step to step -/

section Paced

variable (hpace : o.refresh = 1) (htime : o.timeBudget = none)
include hpace htime

/-- With one iteration in every tick a caller sees all states between iterations. -/
theorem after_tick (h : Amid o sk s k r) (clock : Clock) :
    r.after (.tick clock) = r.iterate ∧ r.callStarts (.tick clock) = [r] :=
  Run.after_tick h.stage_eq (h.options_eq.symm ▸ hpace) (h.options_eq.symm ▸ htime) clock

theorem exists_calls (h : Amid o sk s k r) (n : Nat) (hearly : k + n ≤ 24)
    (hmore : k + n < allowance o s) (hcycle : allowance o s ≤ Cooling.period) :
    ∃ calls, Amid o sk s (k + n) (r.afterAll calls) := by
  induction n generalizing k r with
  | zero => exact ⟨[], h⟩
  | succ n ih =>
      have hnext := h.iterate (by omega) (by omega) hcycle
      rw [← (h.after_tick hpace htime fun _ => 0).1] at hnext
      obtain ⟨calls, hcalls⟩ := ih hnext (by omega) (by omega)
      exact ⟨.tick (fun _ => 0) :: calls, by rwa [Nat.add_assoc, Nat.add_comm 1 n] at hcalls⟩

/-- A caller can bring a step with few iterations to its last one. -/
theorem exists_calls_last (h : Amid o sk s 0 r) (hpos : 0 < allowance o s)
    (hshort : allowance o s ≤ 24) :
    ∃ calls w, Amid o sk s (allowance o s - 1) w ∧ r.afterAll calls = w.iterate := by
  obtain ⟨calls, hlast⟩ := h.exists_calls hpace htime (allowance o s - 1) (by omega) (by omega)
    (hshort.trans (by decide))
  rw [Nat.zero_add] at hlast
  refine ⟨calls ++ [.tick fun _ => 0], _, hlast, ?_⟩
  rw [afterAll_append]
  exact (hlast.after_tick hpace htime _).1

theorem exists_calls_next (h : Amid o sk s 0 r) (hpos : 0 < allowance o s)
    (hshort : allowance o s ≤ 24) (hexchange : s ≠ .exchange) (hnext : s.next ≠ .done)
    (hpos' : 0 < allowance o s.next) : ∃ calls, Amid o sk s.next 0 (r.afterAll calls) := by
  obtain ⟨calls, w, hlast, heq⟩ := h.exists_calls_last hpace htime hpos hshort
  exact ⟨calls, heq ▸ hlast.next (by omega) (by omega) hexchange hnext hpos'⟩

/-- A run with few iterations comes to the exchanges with the orders that it was prepared with. -/
theorem exists_calls_exchange (h : Amid o sk .settle 0 r)
    (hpos : ∀ s : Step, s.rank ≤ Step.exchange.rank → 0 < allowance o s)
    (hshort : ∀ s : Step, s.rank < Step.exchange.rank → allowance o s ≤ 24) :
    ∃ calls, Amid o sk .exchange 0 (r.afterAll calls) := by
  obtain ⟨first, hreverse⟩ := h.exists_calls_next hpace htime (hpos _ (by decide))
    (hshort _ (by decide)) Step.noConfusion Step.noConfusion (hpos _ (by decide))
  obtain ⟨second, hresettle⟩ := hreverse.exists_calls_next hpace htime (hpos _ (by decide))
    (hshort _ (by decide)) Step.noConfusion Step.noConfusion (hpos _ (by decide))
  obtain ⟨third, hexchange⟩ := hresettle.exists_calls_next hpace htime (hpos _ (by decide))
    (hshort _ (by decide)) Step.noConfusion Step.noConfusion (hpos _ (by decide))
  rw [← afterAll_append, ← afterAll_append] at hexchange
  exact ⟨_, hexchange⟩

/-- If the exchanges have few iterations as well, they are left with these orders. -/
theorem exists_calls_polish (h : Amid o sk .settle 0 r)
    (hpos : ∀ s : Step, s.rank ≤ Step.polish.rank → 0 < allowance o s)
    (hshort : ∀ s : Step, s.rank ≤ Step.exchange.rank → allowance o s ≤ 24)
    (hinside : o.allowInside = true) : ∃ calls, ∃ d : Drawing K, d.skeleton = sk ∧
      Amid o (d.relocateInside o.effectiveInsideRatio o.effectiveSeparation).2.skeleton
        .polish 0 (r.afterAll calls) := by
  obtain ⟨calls, hexchange⟩ := h.exists_calls_exchange hpace htime
    (fun s hs => hpos s (hs.trans (by decide))) fun s hs => hshort s hs.le
  have hfew := hshort .exchange (by decide)
  obtain ⟨later, w, hlast, heq⟩ := hexchange.exists_calls_last hpace htime
    (hpos _ (by decide)) hfew
  obtain ⟨d, hd, hpolish⟩ := hlast.polish (by omega) (by omega) hinside (hpos _ (by decide))
  exact ⟨calls ++ later, d, hd, by rwa [afterAll_append, heq]⟩

end Paced

end Amid

end Run

/-! ## A tangle of four nodes -/

namespace Drawing

/-- Four nodes that are all linked, and a fifth with a link to the last of them. -/
noncomputable def tangle : Graph ℝ where
  nodes := [⟨"a", 30.0, 20.0, none, none, false⟩, ⟨"b", 30.0, 20.0, none, none, false⟩,
    ⟨"c", 30.0, 20.0, none, none, false⟩, ⟨"d", 30.0, 20.0, none, none, false⟩,
    ⟨"e", 30.0, 20.0, none, none, false⟩]
  edges := [⟨"ab", "a", "b"⟩, ⟨"ac", "a", "c"⟩, ⟨"ad", "a", "d"⟩, ⟨"bc", "b", "c"⟩,
    ⟨"bd", "b", "d"⟩, ⟨"cd", "c", "d"⟩, ⟨"de", "d", "e"⟩]

/-- The four linked nodes share a ring, and one of them may go inside. -/
noncomputable def tangledRing (iterations : Nat) : Options ℝ :=
  { (Options.defaults : Options ℝ) with
    iterations := iterations, refresh := 1, allowInside := true, maxInsideRatio := 0.25
    clustering := .cells [["a", "b", "c", "d"]] }

noncomputable def tangled (iterations : Nat) : Drawing ℝ :=
  ofClusters tangle (tangledRing iterations) [[0, 1, 2, 3]]

variable {n : Nat}

theorem build_tangle (n : Nat) : build tangle (tangledRing n) = .ok (tangled n) := rfl

theorem seated_tangled (n : Nat) :
    (tangled n).skeleton.Seated fun c => ((tangled n).ring c).order :=
  seated_build (build_tangle n)

theorem chords_tangled :
    (tangled n).chords 0 = [(0, 1), (0, 2), (0, 3), (1, 2), (1, 3), (2, 3)] := by rfl

theorem crossingCount_tangled : (tangled n).crossingCount 0 = 1 := by
  rw [crossingCount, chords_tangled]
  decide

theorem firstToMoveInside?_tangled : (tangled n).firstToMoveInside? 0 = some 0 := by rfl

/-- All four are linked, so no order is better than the one that they are listed in. -/
theorem arrangedOrder_tangled {c : Nat} (hc : c ∈ (tangled n).ringNumbers) :
    (tangled n).arrangedOrder c = ((tangled n).ring c).order := by
  obtain rfl : c = 0 := List.mem_singleton.mp hc
  have harrange : Arrangement.arrange 4 [(0, 1), (0, 2), (0, 3), (1, 2), (1, 3), (2, 3)] =
      [0, 1, 2, 3] := by
    cbv
  change (Arrangement.arrange 4 [(0, 1), (0, 2), (0, 3), (1, 2), (1, 3), (2, 3)]).filterMap
    (fun i => [0, 1, 2, 3][i]?) = [0, 1, 2, 3]
  rw [harrange]
  rfl

/-- A quarter of the four may go inside, which is one of them. -/
theorem skeleton_relocateInside_tangled {d : Drawing ℝ} (hd : d.skeleton = (tangled n).skeleton)
    (separation : ℝ) :
    (d.relocateInside (tangledRing n).effectiveInsideRatio separation).2.skeleton =
      (tangled n).skeleton.takeInside 0 0 0 := by
  have hratio : (tangledRing n).effectiveInsideRatio = 0.25 := by
    change (if (0.25 : ℝ) < 0.0 then 0.0 else if (1.0 : ℝ) < 0.25 then 1.0 else (0.25 : ℝ)) = 0.25
    norm_num
  have hbudget : Scalar.floorNat (([0, 1, 2, 3].length : ℝ) * 0.25) = 1 := by
    change ⌊((4 : Nat) : ℝ) * 0.25⌋₊ = 1
    norm_num
  have hseated : d.skeleton.Seated _ := hd.symm ▸ seated_tangled n
  have hrings : d.ringNumbers = [0] := ringNumbers_congr hd
  have horder : (d.ring 0).order = [0, 1, 2, 3] := congrArg (fun s => (s.ring 0).order) hd
  have hfirst := (firstToMoveInside?_congr hd 0).trans firstToMoveInside?_tangled
  rw [relocateInside, hrings, hratio]
  change (relocateOnRing 0.25 separation (0, d) 0).2.skeleton = _
  rw [skeleton_relocateOnRing hseated, horder, hbudget,
    skeleton_moveMembersInside_one hseated hfirst (by rw [horder]; decide), horder, hd]
  rfl

end Drawing

namespace Run

open Drawing (tangledRing tangled)

variable {n : Nat} {s : Step}

theorem allowance_tangledRing (n : Nat) (s : Step) :
    allowance (tangledRing n) s = Scalar.floorNat ((n : ℝ) * s.share) := rfl

theorem allowance_tangledRing_pos (hn : 10 ≤ n) (hs : s.rank ≤ Step.polish.rank) :
    0 < allowance (tangledRing n) s := by
  rw [allowance_tangledRing, Step.floorNat_share_real]
  cases s with
  | done => exact absurd hs (by decide)
  | _ => dsimp only; omega

/-- The tangle's run, once it is prepared. -/
theorem amid_tangled (hn : 10 ≤ n) : Amid (tangledRing n) (tangled n).skeleton .settle 0
    (ofDrawing (tangled n) (tangledRing n)).prerun := by
  apply amid_prerun (r := ofDrawing (tangled n) (tangledRing n)) rfl
  case hquality => exact Quality.noConfusion
  case hpos => exact allowance_tangledRing_pos hn (by decide)
  case h => exact Drawing.seated_tangled n
  case harranged => exact fun c hc => Drawing.arrangedOrder_tangled hc

/-- With ten iterations the tangle's run comes to its last step, and one member is inside then. -/
theorem exists_calls_tangled : ∃ calls,
    Amid (tangledRing 10) ((tangled 10).skeleton.takeInside 0 0 0) .polish 0
      ((ofDrawing (tangled 10) (tangledRing 10)).prerun.afterAll calls) := by
  have hshort : ∀ s : Step, s.rank ≤ Step.exchange.rank → allowance (tangledRing 10) s ≤ 24 := by
    intro s _
    rw [allowance_tangledRing, Step.floorNat_share_real]
    cases s <;> decide
  obtain ⟨calls, d, hd, hpolish⟩ := (amid_tangled (Nat.le_refl 10)).exists_calls_polish rfl rfl
    (fun s => allowance_tangledRing_pos (Nat.le_refl 10)) hshort rfl
  rw [Drawing.skeleton_relocateInside_tangled hd] at hpolish
  exact ⟨calls, hpolish⟩

/-- With a hundred iterations the tangle's run comes to an iteration that carries out exchanges. -/
theorem exists_calls_exchange_tangled : ∃ calls,
    Amid (tangledRing 100) (tangled 100).skeleton .exchange 24
      ((ofDrawing (tangled 100) (tangledRing 100)).prerun.afterAll calls) := by
  have hmany : 10 ≤ 100 := by decide
  have hshort : ∀ s : Step, s.rank < Step.exchange.rank → allowance (tangledRing 100) s ≤ 24 := by
    intro s hs
    rw [allowance_tangledRing, Step.floorNat_share_real]
    cases s with
    | exchange => exact absurd hs (by decide)
    | _ => decide
  have hbudget : allowance (tangledRing 100) .exchange = 35 := by
    rw [allowance_tangledRing, Step.floorNat_share_real]
  obtain ⟨first, hexchange⟩ := (amid_tangled hmany).exists_calls_exchange rfl rfl
    (fun s hs => allowance_tangledRing_pos hmany (hs.trans (by decide))) hshort
  obtain ⟨later, hlast⟩ := hexchange.exists_calls rfl rfl 24 (by decide) (by rw [hbudget]; decide)
    (by rw [hbudget]; decide)
  exact ⟨first ++ later, by rwa [afterAll_append]⟩

end Run

end RingLayout
