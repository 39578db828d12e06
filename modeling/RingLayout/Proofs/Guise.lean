import RingLayout.Layout
import RingLayout.Proofs.Renaming.Motion
import RingLayout.Proofs.Schedule

/-! # Runs in another guise

What the nodes are called, how the rings were asked for, and how a layout is shown make no
difference to the course of a run: a run in another guise goes through the same states, in the
same guise.
-/

namespace RingLayout

/-- How a caller shows a layout while it is made. -/
structure Display where
  refresh : Nat
  animate : Bool
  duration : Nat

/-- What a caller may change without a change of the course. -/
structure Guise (K : Type) where
  name : String → String
  clustering : Clustering K → Clustering K
  display : Display → Display

variable {K : Type}

namespace Options

def display (o : Options K) : Display := ⟨o.refresh, o.animate, o.animationDuration⟩

def withDisplay (o : Options K) (s : Display) : Options K :=
  { o with refresh := s.refresh, animate := s.animate, animationDuration := s.duration }

def inGuise (w : Guise K) (o : Options K) : Options K :=
  { o.withDisplay (w.display o.display) with clustering := w.clustering o.clustering }

variable [Scalar K] (w : Guise K) (o : Options K)

@[simp] theorem effectiveEdgeLength_inGuise :
    (o.inGuise w).effectiveEdgeLength = o.effectiveEdgeLength := rfl

@[simp] theorem effectiveSeparation_inGuise :
    (o.inGuise w).effectiveSeparation = o.effectiveSeparation := rfl

@[simp] theorem effectiveTolerance_inGuise :
    (o.inGuise w).effectiveTolerance = o.effectiveTolerance := rfl

@[simp] theorem interClusterLength_inGuise :
    (o.inGuise w).interClusterLength = o.interClusterLength := rfl

@[simp] theorem forces_inGuise :
    ForceSettings.ofOptions (o.inGuise w) = ForceSettings.ofOptions o := rfl

theorem assignIdealLengths_inGuise (d : Drawing K) (factor : K) :
    d.assignIdealLengths (o.inGuise w) factor = d.assignIdealLengths o factor := rfl

end Options

namespace Run

def inGuise (w : Guise K) (r : Run K) : Run K :=
  { r with options := r.options.inGuise w, drawing := r.drawing.rename w.name }

theorem inGuise_ite (w : Guise K) (c : Prop) [Decidable c] (r r' : Run K) :
    (if c then r else r').inGuise w = if c then r.inGuise w else r'.inGuise w :=
  apply_ite (inGuise w) c r r'

variable [Scalar K] (w : Guise K) (r : Run K)

theorem ofDrawing_inGuise (d : Drawing K) (o : Options K) :
    ofDrawing (d.rename w.name) (o.inGuise w) = (ofDrawing d o).inGuise w := by
  simp only [ofDrawing, Drawing.nodeBoxes_rename, Drawing.simulated_rename]
  rfl

/-! ## Steps -/

theorem leaveStep_inGuise : (r.inGuise w).leaveStep = r.leaveStep.inGuise w := by
  have hdrawing : (r.inGuise w).drawing = r.drawing.rename w.name := rfl
  rw [leaveStep, leaveStep, inGuise_ite, hdrawing, Drawing.relocateInside_rename]
  rfl

theorem prepareFor_inGuise (o : Options K) (s : Step) (d : Drawing K) :
    prepareFor (o.inGuise w) s (d.rename w.name) = (prepareFor o s d).rename w.name := by
  cases s with
  | reverse => exact d.foldl_rename w.name (Drawing.observeOrder_rename w.name) _
  | exchange => exact d.refreshExchanges_rename w.name
  | polish => exact d.assignIdealLengths_rename w.name o 1.5
  | settle | resettle | done => rfl

theorem enterStep_inGuise (s : Step) : (r.inGuise w).enterStep s = (r.enterStep s).inGuise w :=
  congrArg (fun d => { (r.enterStep s).inGuise w with drawing := d })
    (prepareFor_inGuise w r.options s r.drawing)

theorem advanceStepBy_inGuise (fuel : Nat) :
    advanceStepBy fuel (r.inGuise w) = (advanceStepBy fuel r).inGuise w := by
  induction fuel generalizing r with
  | zero => rfl
  | succ fuel ih =>
      have hstep : ∀ r : Run K, (r.inGuise w).step = r.step := fun _ => rfl
      have hbudget : ∀ r : Run K, (r.inGuise w).stepBudget = r.stepBudget := fun _ => rfl
      simp only [advanceStepBy, leaveStep_inGuise, hstep, enterStep_inGuise, hbudget, ih,
        inGuise_ite]
      rfl

theorem advanceStep_inGuise : (r.inGuise w).advanceStep = r.advanceStep.inGuise w :=
  advanceStepBy_inGuise w r 6

/-! ## Iterations -/

theorem moveBodies_inGuise : (r.inGuise w).moveBodies = r.moveBodies.inGuise w := by
  have hdrawing : (if (r.inGuise w).phase = .beginGathering then
      (r.inGuise w).drawing.refreshExchanges else (r.inGuise w).drawing) =
        (if r.phase = .beginGathering then r.drawing.refreshExchanges
          else r.drawing).rename w.name := by
    rw [← Drawing.ite_rename, ← Drawing.refreshExchanges_rename]
    rfl
  rw [moveBodies, moveBodies, hdrawing, Drawing.gatherForces_rename, Drawing.move_rename]
  rfl

theorem reverseRings_inGuise : (r.inGuise w).reverseRings = r.reverseRings.inGuise w := by
  have hrings : r.drawing.ringNumbers.foldl (fun d c => (Drawing.tryReverse d c).2)
      (r.drawing.rename w.name) =
        (r.drawing.ringNumbers.foldl (fun d c => (Drawing.tryReverse d c).2)
          r.drawing).rename w.name :=
    Drawing.foldl_rename w.name r.drawing (fun d c => by rw [Drawing.tryReverse_rename]; rfl) _
  rw [reverseRings, reverseRings, inGuise_ite]
  refine ite_congr rfl (fun _ => ?_) fun _ => rfl
  exact congrArg (fun d => { r.inGuise w with drawing := d }) hrings

theorem exchangeNeighbors_inGuise :
    (r.inGuise w).exchangeNeighbors = r.exchangeNeighbors.inGuise w := by
  have hdrawing : (r.inGuise w).drawing = r.drawing.rename w.name := rfl
  rw [exchangeNeighbors, exchangeNeighbors, inGuise_ite, hdrawing,
    Drawing.performExchanges_rename]
  rfl

theorem endIteration_inGuise : (r.inGuise w).endIteration = r.endIteration.inGuise w := by
  simp only [endIteration, inGuise_ite, ← advanceStep_inGuise]
  rfl

theorem iterate_inGuise : (r.inGuise w).iterate = r.iterate.inGuise w := by
  have hcount : (r.inGuise w).countIteration = r.countIteration.inGuise w := rfl
  rw [iterate, hcount, moveBodies_inGuise, reverseRings_inGuise, exchangeNeighbors_inGuise,
    endIteration_inGuise]
  rfl

/-! ## Seeding -/

theorem seedNodes_inGuise : (r.inGuise w).seedNodes = r.seedNodes.inGuise w := by
  have hdrawing : (r.inGuise w).drawing = r.drawing.rename w.name := rfl
  have hoptions : (r.inGuise w).options = r.options.inGuise w := rfl
  simp only [seedNodes, hdrawing, hoptions, Drawing.simulated_rename, Drawing.links_rename,
    Drawing.body_rename, Body.box_rename, Options.effectiveEdgeLength_inGuise,
    Options.effectiveSeparation_inGuise, Options.effectiveTolerance_inGuise, Drawing.foldl_rename,
    Drawing.setCenter_rename, implies_true]
  rfl

section PlaceRings

variable (f : String → String) (d : Drawing K)

theorem seedHub_rename (c : Nat) : seedHub (d.rename f) c = (seedHub d c).rename f := by
  simp [seedHub]

theorem arrangeRing_rename (c : Nat) (separation : K) :
    arrangeRing (d.rename f) c separation = (arrangeRing d c separation).rename f := by
  simp [arrangeRing]

end PlaceRings

theorem placeRings_inGuise (d : Drawing K) (o : Options K) :
    placeRings (d.rename w.name) (o.inGuise w) = (placeRings d o).rename w.name := by
  have hhubs := d.foldl_rename w.name (seedHub_rename w.name) d.ringNumbers
  have hrings : ∀ d : Drawing K, d.ringNumbers.foldl
      (fun d c => arrangeRing d c o.effectiveSeparation) (d.rename w.name) =
        (d.ringNumbers.foldl (fun d c => arrangeRing d c o.effectiveSeparation) d).rename w.name :=
    fun d => d.foldl_rename w.name (fun d c => by rw [arrangeRing_rename]) _
  have hplacement : ∀ d : Drawing K,
      Placement.ofDrawing d (o.inGuise w) = Placement.ofDrawing d o := fun d => by
    simp only [Placement.ofDrawing, Options.effectiveEdgeLength_inGuise,
      Options.interClusterLength_inGuise, Options.forces_inGuise]
  simp only [placeRings, Drawing.ringNumbers_rename, hhubs, Options.effectiveSeparation_inGuise,
    hrings, Options.assignIdealLengths_inGuise, Drawing.assignIdealLengths_rename, hplacement,
    Placement.ofDrawing_rename, Placement.apply_rename]

theorem placed_inGuise : (r.inGuise w).placed = r.placed.inGuise w := by
  have hseed : (if (r.inGuise w).options.randomize = true then (r.inGuise w).seedNodes
      else r.inGuise w) =
        (if r.options.randomize = true then r.seedNodes else r).inGuise w := by
    rw [inGuise_ite, seedNodes_inGuise]
    rfl
  rw [placed, placed, hseed]
  generalize (if r.options.randomize = true then r.seedNodes else r) = q
  simp only [inGuise, placeRings_inGuise, Drawing.rootIsConnected_rename]

theorem prerun_inGuise : (r.inGuise w).prerun = r.prerun.inGuise w := by
  have hbegun : (r.inGuise w).begun = r.begun.inGuise w := by
    rw [begun, begun, placed_inGuise, ← enterStep_inGuise]
    generalize r.placed = q
    rfl
  simp only [prerun_eq, inGuise_ite, placed_inGuise, hbegun, advanceStep_inGuise]
  rfl

/-! ## Ticks -/

theorem iterations_inGuise (clock : Clock) (n : Nat) :
    iterations clock n (r.inGuise w) = (iterations clock n r).inGuise w := by
  induction n generalizing r with
  | zero => rfl
  | succ n ih =>
      have hstage : ∀ r : Run K, (r.inGuise w).stage = r.stage := fun _ => rfl
      simp only [iterations, iterate_inGuise, hstage, ih, inGuise_ite]
      rfl

/-- Ticks that are as long in the other guise. -/
theorem tick_inGuise (hrefresh : ∀ s, (w.display s).refresh = s.refresh) (clock : Clock) :
    (r.inGuise w).tick clock = ((r.tick clock).1, (r.tick clock).2.inGuise w) := by
  have hmax : (r.prerun.inGuise w).options.refresh = r.prerun.options.refresh := hrefresh _
  have hstage : ∀ r : Run K, (r.inGuise w).stage = r.stage := fun _ => rfl
  have hnext : (if (r.prerun.inGuise w).stage = .simulating then
      iterations clock (max (r.prerun.inGuise w).options.refresh 1) (r.prerun.inGuise w)
        else r.prerun.inGuise w) = (if r.prerun.stage = .simulating then
          iterations clock (max r.prerun.options.refresh 1) r.prerun else r.prerun).inGuise w := by
    rw [hmax, inGuise_ite, iterations_inGuise]
    rfl
  simp only [tick, prerun_inGuise, hnext]
  rfl

theorem packed_inGuise (o : Options K) (center : Option (Point K)) (d : Drawing K) :
    packed (o.inGuise w) center (d.rename w.name) = (packed o center d).rename w.name := by
  have hpack : (if (o.inGuise w).packComponents then
      ((d.rename w.name).packComponents (o.inGuise w).effectiveEdgeLength).2 else d.rename w.name) =
        (if o.packComponents then (d.packComponents o.effectiveEdgeLength).2
          else d).rename w.name := by
    rw [Drawing.packComponents_rename, ← Drawing.ite_rename]
    rfl
  have htile : ∀ d : Drawing K, (if (o.inGuise w).tile then
      (d.rename w.name).tileIsolated (o.inGuise w).tilingPaddingHorizontal
        (o.inGuise w).tilingPaddingVertical else d.rename w.name) =
        (if o.tile then d.tileIsolated o.tilingPaddingHorizontal o.tilingPaddingVertical
          else d).rename w.name := fun d => by
    rw [Drawing.tileIsolated_rename, ← Drawing.ite_rename]
    rfl
  unfold packed
  dsimp only
  rw [hpack, htile]
  cases center with
  | none => rfl
  | some center => exact Drawing.centerOn_rename w.name _ center

theorem postrun_inGuise : (r.inGuise w).postrun = r.postrun.inGuise w := by
  have hpacked : packed (r.inGuise w).options r.initialCenter (r.inGuise w).drawing =
      (packed r.options r.initialCenter r.drawing).rename w.name :=
    packed_inGuise w r.options r.initialCenter r.drawing
  rw [postrun_eq, postrun_eq, inGuise_ite, inGuise_ite]
  refine ite_congr rfl (fun _ => rfl) fun _ => ite_congr rfl (fun _ => rfl) fun _ => ?_
  exact congrArg (fun d => { r.inGuise w with stage := .postProcessed, drawing := d }) hpacked

theorem ticksUntilDone_inGuise (hrefresh : ∀ s, (w.display s).refresh = s.refresh)
    {σ : Type} (clock : Clock) (observe observe' : σ → Run K → σ)
    (hobserve : ∀ seen r, observe' seen (r.inGuise w) = observe seen r) (fuel : Nat) (seen : σ) :
    ticksUntilDone clock observe' fuel seen (r.inGuise w) =
      (ticksUntilDone clock observe fuel seen r).map id (inGuise w) := by
  induction fuel generalizing r seen with
  | zero => rfl
  | succ fuel ih =>
      simp only [ticksUntilDone, tick_inGuise w r hrefresh, hobserve, ih]
      split <;> rfl

/-- Whole runs that are shown alike. -/
theorem complete_inGuise (hrefresh : ∀ s, (w.display s).refresh = s.refresh)
    {σ : Type} (clock : Clock) (observe observe' : σ → Run K → σ)
    (hobserve : ∀ seen r, observe' seen (r.inGuise w) = observe seen r) (seen : σ) :
    (r.inGuise w).complete clock observe' seen =
      (r.complete clock observe seen).map id (inGuise w) := by
  have hbudget : (r.inGuise w).totalBudget = r.totalBudget := rfl
  simp only [complete, hbudget, prerun_inGuise,
    ticksUntilDone_inGuise w r.prerun hrefresh clock observe observe' hobserve, Prod.map_fst,
    Prod.map_snd, postrun_inGuise, id]
  rfl

end Run

namespace Layout

/-! ## Layouts under the same names -/

variable [Scalar K] {w : Guise K} (hname : w.name = id)
  (hrefresh : ∀ s, (w.display s).refresh = s.refresh) {g g' : Graph K} {o o' : Options K}
  (hcreate : Run.create g' o' = (Run.create g o).map (Run.inGuise w)) (clock : Clock)
include hname

theorem ofRun_inGuise_of_name (r : Run K) : ofRun (r.inGuise w) = ofRun r := by
  rw [Run.inGuise, hname]
  exact congrArg (fun d => ofRun { r with drawing := d }) r.drawing.rename_id

include hrefresh hcreate

/-- Runs that begin in guises with the same names and ticks of the same length are shown alike. -/
theorem withProgress_of_create {σ : Type} (observe : σ → Layout K → σ) (seen : σ) :
    withProgress g' o' clock observe seen = withProgress g o clock observe seen := by
  rw [withProgress, withProgress, hcreate]
  cases Run.create g o with
  | error err => rfl
  | ok r =>
      have hrun := Run.complete_inGuise w r hrefresh clock (fun seen r => observe seen (ofRun r))
        (fun seen r => observe seen (ofRun r))
        (fun seen r => congrArg (observe seen) (ofRun_inGuise_of_name hname r)) seen
      change Except.ok _ = Except.ok _
      dsimp only
      rw [hrun, Prod.map_snd, ofRun_inGuise_of_name hname]
      rfl

theorem compute_of_create : compute g' o' clock = compute g o clock := by
  rw [compute, compute, hcreate]
  cases Run.create g o with
  | error err => rfl
  | ok r =>
      have hrun := Run.complete_inGuise w r hrefresh clock (fun _ _ => ()) (fun _ _ => ())
        (fun _ _ => rfl) ()
      change Except.ok _ = Except.ok _
      dsimp only
      rw [hrun, Prod.map_snd, ofRun_inGuise_of_name hname]

end Layout

end RingLayout
