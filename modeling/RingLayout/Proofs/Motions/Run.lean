import RingLayout.Proofs.Motions.Operations
import RingLayout.Proofs.Placement.Repulsion
import RingLayout.Proofs.Quotient.Run

/-! # The motions of a run

Once its rings have been arranged, a run changes its drawing by motions only: while it places the
rings, in its iterations, between its steps, and when it is packed in the end.
-/

namespace RingLayout

variable {K : Type} [Scalar K] {S : K → Prop} {members : Nat → List Nat}

/-! ## The placement of the rings -/

namespace Placement

/-- The roots that the items of a placement stand for. -/
def roots (items : Array (Placed K)) : Array Nat := items.map (·.root)

theorem roots_addSpring (s : ForceSettings K) (items : Array (Placed K))
    (spring : Nat × Nat × K) : roots (addSpring s items spring) = roots items :=
  (map_modify_eq _ _ fun _ => by rfl).trans (map_modify_eq items _ fun _ => by rfl)

theorem roots_addRepulsion (s : ForceSettings K) (a : Nat) (items : Array (Placed K)) (b : Nat) :
    roots (addRepulsion s a items b) = roots items :=
  (map_modify_eq _ _ fun _ => by rfl).trans (map_modify_eq items _ fun _ => by rfl)

theorem roots_renewNear (p : Placement K) : roots p.renewNear.items = roots p.items := by
  ext i hi hi'
  · simp [roots, size_renewNear]
  · simp [roots, renewNear]

theorem roots_repel (p : Placement K) : roots p.repel.items = roots p.items :=
  foldl_eq_of_step_eq roots
    (fun _ _ => foldl_eq_of_step_eq roots (roots_addRepulsion p.forces _) _ _) _ p.items

theorem roots_gravitate (p : Placement K) : roots p.gravitate.items = roots p.items := by
  unfold gravitate
  dsimp only
  repeat' split
  · rfl
  · simp only [roots, Array.map_map]
    congr 1
    ext item
    simp only [Function.comp_apply]
    split <;> rfl
  · rfl

theorem roots_move (p : Placement K) : roots p.move.items = roots p.items := by
  have hitems : ∀ (factor limit : K) (l : List (Placed K)) (state : Array (Placed K) × K),
      roots (l.foldl (moveItem factor limit) state).1 =
        roots state.1 ++ (l.map (·.root)).toArray := by
    intro factor limit l
    induction l with
    | nil => simp
    | cons i l ih =>
        intro state
        have hpush : roots (moveItem factor limit state i).1 = (roots state.1).push i.root := by
          unfold moveItem
          dsimp only
          split <;> exact Array.map_push
        rw [List.foldl_cons, ih, hpush, List.map_cons]
        simp
  have hmove : p.move.items = (p.items.toList.foldl
      (moveItem p.cooling.factor (p.cooling.factor * Drawing.maxDisplacement)) (#[], 0.0)).1 := by
    rw [Array.foldl_toList]
    rfl
  rw [hmove, hitems]
  apply Array.ext'
  simp [roots]

theorem roots_iterate (p : Placement K) : roots p.iterate.items = roots p.items := by
  have hsprings : roots (p.springs.foldl (addSpring p.forces) p.items) = roots p.items :=
    foldl_eq_of_step_eq roots (roots_addSpring p.forces) _ _
  unfold iterate
  dsimp only
  rw [roots_move, roots_gravitate, roots_repel]
  split
  · rw [roots_renewNear, hsprings]
  · exact hsprings

theorem roots_tick (p : Placement K) : roots p.tick.items = roots p.items := by
  have hcycle : ∀ p : Placement K, p.endCycle.items = p.items := by
    intro p
    unfold endCycle
    split <;> rfl
  unfold tick
  dsimp only
  repeat' split
  · rfl
  · rfl
  · rw [hcycle]
  · rw [roots_iterate, hcycle]

theorem roots_ticks (n : Nat) (p : Placement K) : roots (ticks n p).items = roots p.items := by
  induction n generalizing p with
  | zero => rfl
  | succ n ih =>
      rw [ticks]
      split
      · exact p.roots_tick
      · rw [ih, roots_tick]

theorem roots_ofDrawing (d : Drawing K) (o : Options K) :
    roots (ofDrawing d o).items = d.roots.toArray := by
  simp [roots, ofDrawing, Function.comp_def]

/-- However long the roots of a drawing are placed, the items stand for them. -/
theorem root_mem_of_mem_ticks (d : Drawing K) (o : Options K) (n : Nat) :
    ∀ i ∈ (ticks n (ofDrawing d o).begin).items, i.root ∈ d.roots := by
  have hbegin : (ofDrawing d o).begin.items = (ofDrawing d o).items := by
    unfold begin
    split <;> rfl
  intro i hi
  have hroot : i.root ∈ roots (ticks n (ofDrawing d o).begin).items := Array.mem_map_of_mem hi
  rwa [roots_ticks, hbegin, roots_ofDrawing, List.mem_toArray] at hroot

end Placement

namespace Run

variable {r : Run K}

/-! ## Steps and iterations -/

theorem figure_prepareFor (o : Options K) (s : Step) (d : Drawing K) :
    (prepareFor o s d).figure = d.figure := by
  cases s with
  | reverse => exact foldl_eq_of_step_eq Drawing.figure Drawing.figure_observeOrder _ d
  | exchange => exact d.figure_refreshExchanges
  | polish => exact d.figure_assignIdealLengths o _
  | _ => rfl

theorem drifts_prepareFor (o : Options K) (s : Step) (d : Drawing K) :
    Drawing.Drifts S d (prepareFor o s d) :=
  .stir (figure_prepareFor o s d)

theorem drifts_leaveStep (hS : S r.options.effectiveSeparation)
    (hd : r.drawing.skeleton.Sound members) :
    Drawing.Drifts S r.drawing r.leaveStep.drawing := by
  unfold leaveStep
  split
  · exact Drawing.drifts_relocateInside _ hS hd
  · exact .refl _

theorem drifts_advanceStepBy (fuel : Nat) (hS : S r.options.effectiveSeparation)
    (hd : r.drawing.skeleton.Sound members) :
    Drawing.Drifts S r.drawing (advanceStepBy fuel r).drawing := by
  induction fuel generalizing r with
  | zero => exact .refl _
  | succ fuel ih =>
      have hleave := drifts_leaveStep hS hd
      have henter : Drawing.Drifts S r.drawing
          (r.leaveStep.enterStep r.leaveStep.step.next).drawing :=
        hleave.trans (drifts_prepareFor _ _ _)
      have hoptions : (r.leaveStep.enterStep r.leaveStep.step.next).options = r.options := by
        rw [leaveStep_eq]
        rfl
      rw [advanceStepBy]
      dsimp only
      split
      · exact hleave
      · split
        · exact henter
        · split
          · exact henter
          · exact henter.trans (ih (hoptions ▸ hS) (henter.sound hd))

theorem drifts_moveBodies (hd : r.drawing.skeleton.Sound members) :
    Drawing.Drifts S r.drawing r.moveBodies.drawing := by
  have hrefresh : Drawing.Drifts S r.drawing (if r.phase = .beginGathering then
      r.drawing.refreshExchanges else r.drawing) := by
    split
    · exact .stir r.drawing.figure_refreshExchanges
    · exact .refl _
  have hgather := hrefresh.trans (Drawing.drifts_gatherForces r.forces r.connected _)
  exact hgather.trans (Drawing.drifts_move _ _ (hgather.sound hd))

theorem drifts_reverseRings (r : Run K) :
    Drawing.Drifts S r.drawing r.reverseRings.drawing := by
  unfold reverseRings
  split
  · exact Drawing.Drifts.foldl id fun d _ c _ => d.drifts_tryReverse c
  · exact .refl _

theorem drifts_exchangeNeighbors (r : Run K) :
    Drawing.Drifts S r.drawing r.exchangeNeighbors.drawing := by
  by_cases hphase : r.phase = .carryOut
  · rw [exchangeNeighbors_drawing hphase]
    exact r.drawing.drifts_performExchanges r.memory
  · rw [exchangeNeighbors, if_neg hphase]
    exact .refl _

theorem drifts_worked (hd : r.drawing.skeleton.Sound members) :
    Drawing.Drifts S r.drawing r.worked.drawing := by
  have hmove : Drawing.Drifts S r.drawing r.countIteration.moveBodies.drawing :=
    drifts_moveBodies (r := r.countIteration) hd
  exact (hmove.trans (drifts_reverseRings _)).trans (drifts_exchangeNeighbors _)

theorem drifts_iterate (hS : S r.options.effectiveSeparation)
    (hd : r.drawing.skeleton.Sound members) :
    Drawing.Drifts S r.drawing r.iterate.drawing := by
  have hworked := drifts_worked (S := S) hd
  obtain ⟨w, hdrawing, -, -, hoptions, heq | heq⟩ := r.exists_worked
  · rwa [heq, hdrawing]
  · rw [← hdrawing] at hworked
    rw [heq]
    exact hworked.trans (drifts_advanceStepBy 6 (hoptions ▸ hS) (hworked.sound hd))

/-! ## The preparation -/

/-- Seeding moves bodies that are not set aside, and changes nothing else. -/
structure Seeded (d seeded : Drawing K) : Prop where
  skeleton_eq : seeded.skeleton = d.skeleton
  size_eq : ∀ v, (seeded.body v).box.size = (d.body v).box.size
  tile_eq : ∀ v ∈ d.tiled, (seeded.body v).box = (d.body v).box

namespace Seeded

variable {d d' seeded : Drawing K}

theorem refl (d : Drawing K) : Seeded d d := ⟨rfl, fun _ => rfl, fun _ _ => rfl⟩

theorem trans (h : Seeded d d') (h' : Seeded d' seeded) : Seeded d seeded where
  skeleton_eq := h'.skeleton_eq.trans h.skeleton_eq
  size_eq v := (h'.size_eq v).trans (h.size_eq v)
  tile_eq v hv := by
    have htiled : d'.tiled = d.tiled := congrArg Skeleton.tiled h.skeleton_eq
    exact (h'.tile_eq v (htiled ▸ hv)).trans (h.tile_eq v hv)

theorem setCenter (d : Drawing K) {v : Nat} (hv : v ∉ d.tiled) (p : Point K) :
    Seeded d (d.setCenter v p) where
  skeleton_eq := d.skeleton_setCenter v p
  size_eq u := Drawing.view_modifyBody (·.box.size) d v u fun _ => rfl
  tile_eq u hu := by
    rw [Drawing.setCenter, Drawing.body_modifyBody_of_ne]
    rintro rfl
    exact hv hu

theorem foldl {α : Type} {step : Drawing K → α → Drawing K} {l : List α}
    (hstep : ∀ e, Seeded d e → ∀ a ∈ l, Seeded e (step e a)) : Seeded d (l.foldl step d) :=
  List.foldlRecOn (motive := Seeded d) l step (refl d) fun e he a ha => he.trans (hstep e he a ha)

theorem seedNodes (r : Run K) : Seeded r.drawing r.seedNodes.drawing := by
  unfold Run.seedNodes
  refine foldl fun e he p hp => ?_
  have htiled : e.tiled = r.drawing.tiled := congrArg Skeleton.tiled he.skeleton_eq
  have hsimulated := (List.mem_filter.mp (List.of_mem_zip hp).1).2
  apply setCenter
  rw [htiled]
  simpa using hsimulated

/-- Hubs are not set aside. -/
theorem seedHub (hd : d.skeleton.Sound members) {c : Nat} (hc : c ∈ d.ringNumbers) :
    Seeded d (seedHub d c) := by
  unfold Run.seedHub
  dsimp only
  split
  · exact .refl d
  · apply setCenter
    intro htiled
    have hhub := hd.hubbed.hub c (List.mem_range.mp hc)
    cases (hd.hubbed.tile _ htiled).symm.trans hhub

theorem seedHubs (hd : d.skeleton.Sound members) :
    Seeded d (d.ringNumbers.foldl Run.seedHub d) := by
  refine foldl fun e he c hc => ?_
  have hcount : e.rings.size = d.rings.size := congrArg Skeleton.ringCount he.skeleton_eq
  apply seedHub (he.skeleton_eq ▸ hd)
  rwa [Drawing.ringNumbers, hcount]

end Seeded

theorem drifts_arrangeAll (d : Drawing K) {separation : K} (hS : S separation) :
    Drawing.Drifts S d (arrangeAll d separation) := by
  unfold arrangeAll Operation.run
  rw [List.foldl_map]
  refine Drawing.Drifts.foldl id fun e _ c _ => ?_
  dsimp only [id, Operation.apply]
  exact .ring (.arrange (c := c) separation hS)

/-- Rings are placed once their hubs have been seeded and they have been arranged. -/
theorem drifts_placeRings {d : Drawing K} {o : Options K} (hS : S o.effectiveSeparation)
    (hd : d.skeleton.Sound members) : ∃ seeded : Drawing K, Seeded d seeded ∧
      Drawing.Drifts S (arrangeAll seeded o.effectiveSeparation) (placeRings d o) := by
  let seeded := d.ringNumbers.foldl seedHub d
  let stretched := (arrangeAll seeded o.effectiveSeparation).assignIdealLengths o 1.0
  have hseeded : Seeded d seeded := .seedHubs hd
  have hstretched : Drawing.Drifts S (arrangeAll seeded o.effectiveSeparation) stretched :=
    .stir (Drawing.figure_assignIdealLengths _ o _)
  refine ⟨seeded, hseeded, hstretched.trans ?_⟩
  rw [placeRings_eq]
  apply Drawing.drifts_place
  case hd =>
    exact ((drifts_arrangeAll seeded hS).trans hstretched).sound (hseeded.skeleton_eq.symm ▸ hd)
  case hp => exact Placement.root_mem_of_mem_ticks stretched o _

theorem drifts_placed (hS : S r.options.effectiveSeparation)
    (hd : r.drawing.skeleton.Sound members) :
    ∃ seeded : Drawing K, Seeded r.drawing seeded ∧
      Drawing.Drifts S (arrangeAll seeded r.options.effectiveSeparation) r.placed.drawing := by
  unfold placed
  dsimp only
  split
  · obtain ⟨e, random, hseed⟩ := r.seedNodes_eq
    have hnodes := Seeded.seedNodes r
    rw [hseed] at hnodes ⊢
    obtain ⟨seeded, hhubs, hdrifts⟩ := drifts_placeRings hS (hnodes.skeleton_eq.symm ▸ hd)
    exact ⟨seeded, hnodes.trans hhubs, hdrifts⟩
  · exact drifts_placeRings hS hd

theorem drifts_begun (r : Run K) : Drawing.Drifts S r.placed.drawing r.begun.drawing := by
  unfold begun
  generalize r.placed = w
  exact drifts_prepareFor w.options .settle w.drawing

/-- The preparation leaves the drawing alone, or it arranges all rings and goes on from there. -/
theorem prerun_drawing_cases (hstage : r.stage = .created) (hS : S r.options.effectiveSeparation)
    (hd : r.drawing.skeleton.Sound members) :
    (¬r.options.PlacesRings ∧ r.prerun.drawing = r.drawing) ∨
      ∃ seeded : Drawing K, Seeded r.drawing seeded ∧
        Drawing.Drifts S (arrangeAll seeded r.options.effectiveSeparation) r.prerun.drawing := by
  obtain ⟨seeded, hseeded, hplaced⟩ := drifts_placed hS hd
  have hbegun := hplaced.trans (drifts_begun r)
  have hsound := hbegun.sound
    ((drifts_arrangeAll seeded hS).sound (hseeded.skeleton_eq.symm ▸ hd))
  have hoptions : r.begun.options = r.options := by
    obtain ⟨e, random, connected, heq⟩ := r.placed_eq
    rw [begun, heq]
    rfl
  rw [prerun_eq, if_neg (not_not_intro hstage)]
  split
  next hkeep =>
    refine Or.inl ⟨?_, rfl⟩
    rw [Bool.and_eq_true, decide_eq_true_eq, Bool.not_eq_true'] at hkeep
    simp [Options.PlacesRings, hkeep]
  next =>
    refine Or.inr ⟨seeded, hseeded, ?_⟩
    split
    · rw [drawing_finish]
      exact hplaced
    · split
      · exact hbegun.trans (drifts_advanceStepBy 6 (hoptions ▸ hS) hsound)
      · exact hbegun

/-! ## The end of a run -/

theorem motions_packed (o : Options K) (center : Option (Point K)) {d : Drawing K}
    (hd : d.skeleton.Sound members) : Drawing.Motions S d (packed o center d) := by
  have hpack : Drawing.Motions S d
      (if o.packComponents then (d.packComponents o.effectiveEdgeLength).2 else d) := by
    split
    · exact (Drawing.drifts_packComponents _ hd).motions
    · exact .refl _
  have htile := fun (d : Drawing K) (hd : d.skeleton.Sound members) =>
    show Drawing.Motions S d (if o.tile then
        d.tileIsolated o.tilingPaddingHorizontal o.tilingPaddingVertical else d) by
      split
      · exact Drawing.motions_tileIsolated _ _ hd
      · exact .refl _
  have hpacked := hpack.trans (htile _ (hpack.sound hd))
  cases center with
  | some target => exact hpacked.trans (Drawing.motions_centerOn _ target)
  | none => exact hpacked

theorem motions_postrun (hd : r.drawing.skeleton.Sound members) :
    Drawing.Motions S r.drawing r.postrun.drawing := by
  rw [postrun_eq]
  split
  · exact .refl _
  · split
    · exact .refl _
    · exact motions_packed _ _ hd

/-! ## Whole runs -/

/-- What arranging all rings brings about and motions keep. -/
structure Enduring (S : K → Prop) (o : Options K) (members : Nat → List Nat)
    (P : Drawing K → Prop) : Prop where
  separation : S o.effectiveSeparation
  arranged : ∀ d : Drawing K, d.skeleton.Sound members → P (arrangeAll d o.effectiveSeparation)
  kept : ∀ d d' : Drawing K, d.skeleton.Sound members → P d → Drawing.Motion S d d' → P d'

/-- What lasts of one ring endures of all of them. -/
theorem enduring_of_lasting {o : Options K} {P : Nat → Drawing K → Prop}
    (h : Drawing.Lasting S members P) (hS : S o.effectiveSeparation) :
    Enduring S o members fun d => ∀ c, P c d where
  separation := hS
  arranged d hd c := by
    by_cases hc : c < d.rings.size
    · apply h.run hd
      case hfits =>
        intro op hop
        obtain ⟨b, -, rfl⟩ := List.mem_map.mp hop
        trivial
      case hS =>
        intro op hop separation hseparation
        obtain ⟨b, -, rfl⟩ := List.mem_map.mp hop
        cases hseparation
        exact hS
      case hc =>
        exact ⟨.arrange c _, List.mem_map_of_mem (List.mem_range.mpr hc), _, Or.inl rfl⟩
    · apply h.vacant
      rw [Drawing.ring_eq_blank]
      · rfl
      · have hcount : (arrangeAll d o.effectiveSeparation).rings.size = d.rings.size :=
          ((drifts_arrangeAll d hS).evolves hd).ringCount_eq
        rw [hcount]
        exact Nat.le_of_not_lt hc
  kept d d' hd hP hmotion c := h.kept d d' c hd (hP c) hmotion

/-- A run for options whose drawing is in shape once its rings have been placed. -/
structure Formed (o : Options K) (members : Nat → List Nat) (P : Drawing K → Prop)
    (r : Run K) : Prop where
  informed : Informed o members r
  hubbed : r.drawing.skeleton.Hubbed
  holds : r.stage ≠ .created → o.PlacesRings → P r.drawing

namespace Formed

variable {o : Options K} {P : Drawing K → Prop}

theorem sound (h : Formed o members P r) : r.drawing.skeleton.Sound members :=
  ⟨h.informed.seated, h.hubbed⟩

variable (hP : Enduring S o members P)
include hP

/-- Motions that lead from the drawing of a formed run to that of a later one keep the form. -/
theorem of_motions {r' : Run K} (h : Formed o members P r) (hinformed : Informed o members r')
    (hcreated : r.stage ≠ .created) (hmotions : Drawing.Motions S r.drawing r'.drawing) :
    Formed o members P r' where
  informed := hinformed
  hubbed := (hmotions.sound h.sound).hubbed
  holds _ hplaces := hmotions.induct h.sound (h.holds hcreated hplaces) hP.kept

theorem prerun (h : Formed o members P r) : Formed o members P r.prerun := by
  by_cases hstage : r.stage = .created
  · have hS : S r.options.effectiveSeparation := h.informed.options_eq ▸ hP.separation
    rcases prerun_drawing_cases hstage hS h.sound with
      ⟨hplaces, heq⟩ | ⟨seeded, hseeded, hdrifts⟩
    · refine ⟨h.informed.prerun, heq ▸ h.hubbed, fun _ hplaces' => absurd ?_ hplaces⟩
      rwa [h.informed.options_eq]
    · have hsound : seeded.skeleton.Sound members := hseeded.skeleton_eq.symm ▸ h.sound
      have harranged := (drifts_arrangeAll seeded hS).sound hsound
      refine ⟨h.informed.prerun, (hdrifts.sound harranged).hubbed, fun _ _ => ?_⟩
      rw [h.informed.options_eq] at hdrifts harranged
      exact hdrifts.motions.induct harranged (hP.arranged seeded hsound) hP.kept
  · rwa [prerun_of_ne hstage]

theorem iterate (h : Formed o members P r) (hstage : r.stage = .simulating) :
    Formed o members P r.iterate := by
  apply h.of_motions hP (h.informed.iterate hstage)
  · rw [hstage]
    exact Stage.noConfusion
  · exact (drifts_iterate (h.informed.options_eq ▸ hP.separation) h.sound).motions

theorem stop (h : Formed o members P r) (hstage : r.stage = .simulating) :
    Formed o members P r.stop := by
  apply h.of_motions hP (h.informed.stop hstage)
  · rw [hstage]
    exact Stage.noConfusion
  · exact .refl _

theorem postrun (h : Formed o members P r) : Formed o members P r.postrun := by
  by_cases hcreated : r.stage = .created
  · have heq : r.postrun = r := by rw [postrun_eq, if_pos (Or.inl hcreated)]
    rwa [heq]
  · exact h.of_motions hP h.informed.postrun hcreated (motions_postrun h.sound)

/-- The form lasts on every path, and in the iterations on the way. -/
theorem path {r' : Run K} {qs : List (Run K)} (h : Formed o members P r) (hpath : Path r qs r') :
    Formed o members P r' ∧ ∀ q ∈ qs, q.stage = .simulating ∧ Formed o members P q := by
  induction hpath with
  | refl => exact ⟨h, by simp⟩
  | prerun _ ih => exact ih (h.prerun hP)
  | iterate hstage _ ih =>
      obtain ⟨hend, hstarts⟩ := ih (h.iterate hP hstage)
      exact ⟨hend, List.forall_mem_cons.mpr ⟨⟨hstage, h⟩, hstarts⟩⟩
  | stop hstage _ ih => exact ih (h.stop hP hstage)
  | postrun _ ih => exact ih (h.postrun hP)

end Formed

theorem formed_ofDrawing {g : Graph K} {o : Options K} {d : Drawing K} {P : Drawing K → Prop}
    (h : Drawing.build g o = .ok d) :
    Formed o (fun c => (d.ring c).order) P (ofDrawing d o) where
  informed := informed_ofDrawing h
  hubbed := (Drawing.sound_build h).hubbed
  holds hcreated := absurd rfl hcreated

/-- What endures holds in every state that a caller sees after the preparation. -/
theorem Enduring.afterAll {g : Graph K} {o : Options K} {d : Drawing K} {P : Drawing K → Prop}
    (hP : Enduring S o (fun c => (d.ring c).order) P) (h : Drawing.build g o = .ok d)
    (hplaces : o.PlacesRings) (calls : List Call)
    (hcreated : ((ofDrawing d o).afterAll calls).stage ≠ .created) :
    P ((ofDrawing d o).afterAll calls).drawing :=
  (((formed_ofDrawing h).path hP ((ofDrawing d o).path_afterAll calls)).1).holds hcreated hplaces

/-- It also holds where iterations start. -/
theorem Enduring.starts {g : Graph K} {o : Options K} {d : Drawing K} {P : Drawing K → Prop}
    (hP : Enduring S o (fun c => (d.ring c).order) P) (h : Drawing.build g o = .ok d)
    (hplaces : o.PlacesRings) (calls : List Call) :
    ∀ q ∈ (ofDrawing d o).starts calls, P q.drawing := by
  intro q hq
  obtain ⟨hstage, hformed⟩ :=
    ((formed_ofDrawing h).path hP ((ofDrawing d o).path_afterAll calls)).2 q hq
  apply hformed.holds _ hplaces
  rw [hstage]
  exact Stage.noConfusion

/-- Nothing that follows a preparation takes it back. -/
theorem stage_ne_of_prerun {o : Options K} (h : Informed o members r) (calls : List Call) :
    (r.afterAll (.prerun :: calls)).stage ≠ .created := by
  have hunderway : Underway members r.prerun :=
    ⟨prerun_stage_ne r, h.prerun.schedule, h.prerun.seated⟩
  exact (hunderway.path (r.prerun.path_afterAll calls)).1.stage_ne

end Run

end RingLayout
