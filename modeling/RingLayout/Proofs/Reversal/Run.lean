import RingLayout.Proofs.Circles
import RingLayout.Proofs.Locality.Motion
import RingLayout.Proofs.Record
import RingLayout.Proofs.Reversal.Ring

/-! # Reversals in a run

A ring that may still be reversed is licensed. Nothing but a reversal takes a licence away, and
nothing gives it back. So in a run no ring is reversed twice.
-/

namespace RingLayout

variable {K : Type} [Scalar K]

namespace Drawing

variable {d d' : Drawing K}

/-! ## Licences -/

/-- Which rings may still be reversed. -/
def licences (d : Drawing K) : Array Bool := d.rings.map (·.mayReverse)

theorem mayReverse_eq (d : Drawing K) (c : Nat) :
    (d.ring c).mayReverse = d.licences.getD c false := by
  simp only [ring, licences, Array.getD_eq_getD_getElem?, Array.getElem?_map]
  cases d.rings[c]? <;> rfl

theorem mayReverse_of_licences (h : d'.licences = d.licences) (c : Nat) :
    (d'.ring c).mayReverse = (d.ring c).mayReverse := by
  rw [mayReverse_eq, mayReverse_eq, h]

omit [Scalar K] in
theorem licences_of_rings (h : d'.rings = d.rings) : d'.licences = d.licences :=
  congrArg (Array.map Ring.mayReverse) h

omit [Scalar K] in
theorem licences_modifyRing (d : Drawing K) (c : Nat) {f : Ring K → Ring K}
    (hf : ∀ r, (f r).mayReverse = r.mayReverse) : (d.modifyRing c f).licences = d.licences :=
  map_modify_eq d.rings c hf

theorem licences_placeMembers (d : Drawing K) (c : Nat) :
    (d.placeMembers c).licences = d.licences :=
  licences_of_rings (d.rings_placeMembers c)

theorem licences_spread (d : Drawing K) (c : Nat) (separation : K) :
    (d.spread c separation).licences = d.licences := by
  have hturned : (d.turned c separation).licences = d.licences :=
    (licences_of_rings (rings_assignAngles ..)).trans (d.licences_modifyRing c fun _ => rfl)
  rw [spread_eq]
  split
  · exact hturned
  · exact (licences_placeMembers _ c).trans hturned

theorem licences_swapWithNext (d : Drawing K) (c i : Nat) :
    (d.swapWithNext c i).licences = d.licences := by
  rcases d.swapWithNext_cases c i with heq | ⟨j, u, v, -, -, -, -, heq⟩
  · rw [heq]
  · rw [heq, licences_placeMembers]
    exact licences_modifyRing _ c fun _ => rfl

theorem licences_moveInside (d : Drawing K) (c v : Nat) :
    (d.moveInside c v).licences = d.licences := by
  rcases d.moveInside_cases c v with heq | ⟨i, seated, inside, -, heq⟩
  · rw [heq]
  · rw [heq]
    let order := (d.ring c).order.eraseIdx i
    let shorten (r : Ring K) : Ring K := { r with order := order, inside := r.inside ++ [v] }
    exact (licences_modifyRing _ c (f := shorten) fun _ => rfl).trans
      (licences_of_rings (d.rings_renumber i (order.drop i)))

/-! ## Exchanges and going inside -/

omit [Scalar K] in
theorem licences_observeOrders (d : Drawing K) (rings : List Nat) :
    (rings.foldl observeOrder d).licences = d.licences :=
  foldl_eq_of_step_eq licences (fun d c => d.licences_modifyRing c fun _ => by rfl) rings d

theorem licences_refreshExchanges (d : Drawing K) :
    d.refreshExchanges.licences = d.licences :=
  (licences_of_rings d.rings_refreshExchanges).trans (d.licences_observeOrders _)

theorem Exchanges.licences_eq {held pairs : List (Nat × Nat)} (h : Exchanges held d pairs d') :
    d'.licences = d.licences := by
  induction h with
  | done => rfl
  | exchange _ _ _ _ _ ih => rw [ih, licences_swapWithNext]
  | takeBack _ _ _ _ _ ih => rw [ih, licences_swapWithNext, licences_swapWithNext]

theorem licences_performExchanges (d : Drawing K) (m : ExchangeMemory) :
    (d.performExchanges m).2.1.licences = d.licences := by
  obtain ⟨d', hexchanges, heq⟩ := d.exists_exchanges m
  rw [heq, ← hexchanges.licences_eq]
  exact foldl_eq_of_step_eq licences (fun _ _ => by rfl) _ d'

theorem licences_moveMembersInside (c budget : Nat) (d : Drawing K) :
    (moveMembersInside c budget d).2.licences = d.licences := by
  induction budget generalizing d with
  | zero => rfl
  | succ budget ih =>
      rw [moveMembersInside]
      split
      · split
        next => rfl
        next v _ => exact (ih _).trans (d.licences_moveInside c v)
      · rfl

theorem licences_relocateInside (d : Drawing K) (share separation : K) :
    (d.relocateInside share separation).2.licences = d.licences := by
  refine foldl_eq_of_step_eq (fun state : Nat × Drawing K => state.2.licences)
    (fun state c => ?_) d.ringNumbers (0, d)
  have hmoved := licences_moveMembersInside c
    (Scalar.floorNat (((state.2.ring c).order.length : K) * share)) state.2
  unfold relocateOnRing
  dsimp only
  split
  · exact hmoved
  · have hkept := fun (d : Drawing K) v center radius =>
      licences_of_rings (d.rings_keepInside v center radius)
    rw [foldl_eq_of_step_eq licences fun d v => hkept d v _ _, licences_spread]
    exact hmoved

/-! ## Reversals -/

/-- The rings that are reversed when rings are tested in turn. -/
def reversals : List Nat → Drawing K → List Nat
  | [], _ => []
  | c :: rings, d =>
    (if (d.tryReverse c).1 then [c] else []) ++ reversals rings (d.tryReverse c).2

/-- On the way from one drawing to another distinct rings use up their licences, and nothing else
changes the licences. -/
structure Spends (spent : List Nat) (d d' : Drawing K) : Prop where
  nodup : spent.Nodup
  licensed : ∀ c ∈ spent, (d.ring c).mayReverse = true
  mayReverse_eq : ∀ c, (d'.ring c).mayReverse = if c ∈ spent then false else (d.ring c).mayReverse

theorem spends_of_licences (h : d'.licences = d.licences) : Spends [] d d' where
  nodup := List.nodup_nil
  licensed _ hc := absurd hc List.not_mem_nil
  mayReverse_eq c := mayReverse_of_licences h c

/-- What is used up later was still there before. -/
theorem Spends.append {spent spent' : List Nat} {d'' : Drawing K} (h : Spends spent d d')
    (h' : Spends spent' d' d'') : Spends (spent ++ spent') d d'' := by
  have hlater : ∀ c ∈ spent', c ∉ spent ∧ (d.ring c).mayReverse = true := by
    intro c hc
    have hlicensed := h'.licensed c hc
    rw [h.mayReverse_eq] at hlicensed
    split at hlicensed
    next => cases hlicensed
    next hnot => exact ⟨hnot, hlicensed⟩
  constructor
  case nodup =>
    exact List.nodup_append'.mpr ⟨h.nodup, h'.nodup, fun c hc hc' => (hlater c hc').1 hc⟩
  case licensed =>
    intro c hc
    exact (List.mem_append.mp hc).elim (h.licensed c) fun hc' => (hlater c hc').2
  case mayReverse_eq =>
    intro c
    rw [h'.mayReverse_eq, h.mayReverse_eq]
    by_cases hc : c ∈ spent <;> by_cases hc' : c ∈ spent' <;> simp [hc, hc']

/-- A test takes the licence of the ring that it reverses. -/
theorem spends_tryReverse (d : Drawing K) (c : Nat) :
    Spends (if (d.tryReverse c).1 then [c] else []) d (d.tryReverse c).2 := by
  split
  next htrue =>
    have hreversed := reversed_tryReverse htrue
    obtain ⟨htest, -⟩ := (d.tryReverse_fst_iff c).mp htrue
    constructor
    case nodup => exact List.nodup_singleton c
    case licensed =>
      intro b hb
      rw [List.mem_singleton.mp hb]
      exact ((d.mayTestReversal_iff c).mp htest).1
    case mayReverse_eq =>
      intro b
      split
      next hb => rw [List.mem_singleton.mp hb, hreversed.ring_eq]
      next hb => rw [hreversed.others_eq b (mt List.mem_singleton.mpr hb)]
  next hfalse =>
    rw [tryReverse_of_false (Bool.eq_false_iff.mpr hfalse)]
    exact spends_of_licences rfl

theorem spends_reversals (rings : List Nat) (d : Drawing K) :
    Spends (reversals rings d) d (rings.foldl (fun d c => (d.tryReverse c).2) d) := by
  induction rings generalizing d with
  | nil => exact spends_of_licences rfl
  | cons c rings ih => exact (d.spends_tryReverse c).append (ih _)

end Drawing

namespace Run

open Drawing (Spends spends_of_licences)

variable {r : Run K}

/-! ## Iterations -/

theorem licences_moveBodies (r : Run K) : r.moveBodies.drawing.licences = r.drawing.licences := by
  unfold moveBodies
  dsimp only
  rw [Drawing.licences_of_rings (Drawing.rings_move _ _ _),
    Drawing.licences_of_rings (Drawing.rings_gatherForces _ _ _)]
  split
  · exact r.drawing.licences_refreshExchanges
  · rfl

theorem licences_exchangeNeighbors (r : Run K) :
    r.exchangeNeighbors.drawing.licences = r.drawing.licences := by
  by_cases hphase : r.phase = .carryOut
  · rw [exchangeNeighbors_drawing hphase, Drawing.licences_performExchanges]
  · rw [exchangeNeighbors, if_neg hphase]

theorem licences_leaveStep (r : Run K) : r.leaveStep.drawing.licences = r.drawing.licences := by
  unfold leaveStep
  split
  · exact r.drawing.licences_relocateInside _ _
  · rfl

theorem licences_prepareFor (o : Options K) (s : Step) (d : Drawing K) :
    (prepareFor o s d).licences = d.licences := by
  cases s with
  | reverse => exact d.licences_observeOrders _
  | exchange => exact d.licences_refreshExchanges
  | _ => rfl

theorem licences_advanceStepBy (fuel : Nat) (r : Run K) :
    (advanceStepBy fuel r).drawing.licences = r.drawing.licences := by
  induction fuel generalizing r with
  | zero => rfl
  | succ fuel ih =>
      have hentered : (r.leaveStep.enterStep r.leaveStep.step.next).drawing.licences =
          r.drawing.licences := (licences_prepareFor _ _ _).trans (licences_leaveStep r)
      rw [advanceStepBy]
      dsimp only
      split
      · exact licences_leaveStep r
      · split
        · exact hentered
        · split
          · exact hentered
          · exact (ih _).trans hentered

theorem licences_endIteration (r : Run K) :
    r.endIteration.drawing.licences = r.drawing.licences := by
  unfold endIteration
  dsimp only
  split
  · exact licences_advanceStepBy 6 r
  · split
    · split
      · exact licences_advanceStepBy 6 _
      · rfl
    · rfl

/-- The rings that an iteration reverses. -/
def iterationReversals (r : Run K) : List Nat :=
  let r := r.countIteration.moveBodies
  if r.step = .reverse ∧ r.stepIteration % reversalPeriod = 0 then
    Drawing.reversals r.drawing.ringNumbers r.drawing
  else []

/-- The rings that are reversed during calls in turn. -/
def reversals (r : Run K) (calls : List Call) : List Nat :=
  (r.starts calls).flatMap iterationReversals

theorem spends_reverseRings (r : Run K) : Spends
    (if r.step = .reverse ∧ r.stepIteration % reversalPeriod = 0 then
      Drawing.reversals r.drawing.ringNumbers r.drawing else [])
    r.drawing r.reverseRings.drawing := by
  unfold reverseRings
  split
  · exact Drawing.spends_reversals _ _
  · exact spends_of_licences rfl

/-- An iteration takes the licences of the rings that it reverses. -/
theorem spends_iterate (r : Run K) : Spends r.iterationReversals r.drawing r.iterate.drawing := by
  have hmoved : Spends [] r.drawing r.countIteration.moveBodies.drawing :=
    spends_of_licences (licences_moveBodies r.countIteration)
  have hended : Spends [] r.countIteration.moveBodies.reverseRings.drawing r.iterate.drawing :=
    spends_of_licences ((licences_endIteration _).trans (licences_exchangeNeighbors _))
  have hspends := (hmoved.append (spends_reverseRings _)).append hended
  rwa [List.nil_append, List.append_nil] at hspends

/-! ## Runs -/

/-- The rings reversed so far have used up their licences, as long as the simulation goes on. -/
structure Thrifty (prepared : Drawing K) (qs : List (Run K)) (r : Run K) : Prop where
  nodup : (qs.flatMap iterationReversals).Nodup
  spends : r.stage = .simulating → Spends (qs.flatMap iterationReversals) prepared r.drawing

variable {members : Nat → List Nat} {o : Options K} {built prepared : Drawing K}

theorem Thrifty.iterate {qs : List (Run K)} (h : Thrifty prepared qs r)
    (hstage : r.stage = .simulating) : Thrifty prepared (qs ++ [r]) r.iterate := by
  have hspends := (h.spends hstage).append r.spends_iterate
  have hlog : (qs ++ [r]).flatMap iterationReversals =
      qs.flatMap iterationReversals ++ r.iterationReversals := by
    rw [List.flatMap_append, List.flatMap_singleton]
  exact ⟨hlog ▸ hspends.nodup, fun _ => hlog ▸ hspends⟩

theorem lasting_thrifty : Lasting o members built (Thrifty prepared) where
  iterate _ _ _ _ hstage h := h.iterate hstage
  stop _ _ _ _ _ h := ⟨h.nodup, fun hstage => Stage.noConfusion hstage⟩
  postrun _ _ _ _ hcreated h :=
    ⟨h.nodup, fun hstage => Stage.noConfusion ((postrun_stage hcreated).symm.trans hstage)⟩

/-- In a run no ring is reversed twice. -/
theorem reversals_nodup {g : Graph K} (hbuild : Drawing.build g o = .ok built)
    (calls : List Call) : ((ofDrawing built o).reversals calls).Nodup := by
  have hstart : Thrifty (ofDrawing built o).prerun.drawing [] (ofDrawing built o).prerun :=
    ⟨List.nodup_nil, fun _ => spends_of_licences rfl⟩
  obtain ⟨-, hstarts⟩ := lasting_thrifty.afterAll hbuild hstart calls
  unfold reversals
  rcases List.eq_nil_or_concat ((ofDrawing built o).starts calls) with hnil | ⟨first, q, hlast⟩
  · rw [hnil]
    exact List.nodup_nil
  · rw [List.concat_eq_append] at hlast
    obtain ⟨hstage, hattained⟩ := hstarts first q [] hlast
    rw [hlast]
    exact (hattained.holds.iterate hstage).nodup

/-- What a reversal does after any operations on a new drawing, and how often it happens in the
runs on it. -/
structure ReversesForBetter (start : Run ℝ) : Prop where
  /-- The bodies may be anywhere, and the members of the ring at any angles. -/
  realigns : ∀ ops d c, d.skeleton = (Operation.run ops start.drawing).skeleton →
    (∀ v ∈ (d.ring c).order, d.angleOf v ∈ Set.Ico 0 fullTurn) → Drawing.Realigns d c
  once : ∀ calls, (start.reversals calls).Nodup

/-- In exact arithmetic a reversal exchanges the scores of a ring. So a ring is reversed only where
it aligns better then, and in a run this happens once at most. -/
theorem reversesForBetter {g : Graph ℝ} {o : Options ℝ} {start : Run ℝ}
    (h : create g o = .ok start) : ReversesForBetter start := by
  obtain ⟨built, hbuild, rfl⟩ := create_eq_ok h
  constructor
  case realigns =>
    intro ops d c hskeleton hangles
    have hevolves := Operation.evolves_run (Drawing.sound_build hbuild) ops
    change d.skeleton = (Operation.run ops built).skeleton at hskeleton
    rw [← hskeleton] at hevolves
    exact Drawing.realigns hevolves.sound (Drawing.outward_of_evolves hbuild hevolves c) hangles
  case once => exact reversals_nodup hbuild

end Run

namespace Drawing

/-- A ring of three. The nodes that its members are linked to stand around it the other way
round. -/
noncomputable def facingAway : Graph ℝ where
  nodes := [⟨"a", 30.0, 20.0, none, none, false⟩, ⟨"b", 30.0, 20.0, none, none, false⟩,
    ⟨"c", 30.0, 20.0, none, none, false⟩, ⟨"p", 30.0, 20.0, some ⟨100.0, 0.0⟩, none, false⟩,
    ⟨"q", 30.0, 20.0, some ⟨-100.0, 0.0⟩, none, false⟩,
    ⟨"r", 30.0, 20.0, some ⟨0.0, 100.0⟩, none, false⟩]
  edges := [⟨"ap", "a", "p"⟩, ⟨"bq", "b", "q"⟩, ⟨"cr", "c", "r"⟩]

noncomputable def ringOfThree : Options ℝ :=
  { (Options.defaults : Options ℝ) with clustering := .cells [["a", "b", "c"]] }

noncomputable def facedAway : Drawing ℝ := ofClusters facingAway ringOfThree [[0, 1, 2]]

theorem build_facingAway : build facingAway ringOfThree = .ok facedAway := rfl

theorem bearing_facedAway {p : Nat × Nat} {x y a : ℝ}
    (hfar : (facedAway.body ((facedAway.link p.2).other p.1)).center = ⟨x, y⟩)
    (harg : Complex.arg ⟨x, y⟩ = a) (ha : a ∈ Set.Ico 0 fullTurn) : facedAway.bearing 0 p = a := by
  have hzero : (0.0 : ℝ) = 0 := by norm_num
  have hcenter : facedAway.ringCenter 0 = ⟨0.0, 0.0⟩ := Box.center_centered _ _ _
  have hangle : facedAway.angleOf ((facedAway.ring 0).order.headD 0) = 0.0 := rfl
  have hatan : (Scalar.atan2 y x : ℝ) = a := harg
  rw [bearing, hcenter, hangle, hfar]
  simp only [Point.sub, hzero, sub_zero, hatan]
  exact normalizeAngle_eq_self ha

/-- The far ends are in the directions 0, π and π/2. -/
theorem farMembers_facedAway : facedAway.farMembers 0 = [0, 2, 1] := by
  have hpi := Real.pi_pos
  have hturn : fullTurn = 2 * Real.pi := rfl
  have hp : facedAway.bearing 0 (0, 0) = 0 := by
    have hpoint : (⟨100.0, 0.0⟩ : ℂ) = (100 : ℝ) := by apply Complex.ext <;> norm_num
    refine bearing_facedAway (Box.center_centered _ _ _) ?_ ⟨le_rfl, fullTurn_pos⟩
    exact hpoint ▸ Complex.arg_ofReal_of_nonneg (by norm_num)
  have hq : facedAway.bearing 0 (1, 1) = Real.pi := by
    have hpoint : (⟨-100.0, 0.0⟩ : ℂ) = (-100 : ℝ) := by apply Complex.ext <;> norm_num
    refine bearing_facedAway (Box.center_centered _ _ _) ?_ ⟨hpi.le, by linarith⟩
    exact hpoint ▸ Complex.arg_ofReal_of_neg (by norm_num)
  have hr : facedAway.bearing 0 (2, 2) = Real.pi / 2 := by
    have hpoint : (⟨0.0, 100.0⟩ : ℂ) = (100 : ℝ) * Complex.I := by apply Complex.ext <;> norm_num
    refine bearing_facedAway (Box.center_centered _ _ _) ?_ ⟨by linarith, by linarith⟩
    rw [hpoint, Complex.arg_real_mul _ (by norm_num), Complex.arg_I]
  have hsound := sound_build build_facingAway
  have houtward := outward_of_evolves build_facingAway (.refl hsound) 0
  have hspokes := List.mergeSort_perm (facedAway.spokes (facedAway.ring 0).order)
    (facedAway.comesFirst 0)
  have hperm : (facedAway.spokes (facedAway.ring 0).order).Perm [(0, 0), (2, 2), (1, 1)] :=
    .cons _ (.swap _ _ _)
  have hsorted := houtward.eq_of_sorted hspokes (hspokes.trans hperm)
    (facedAway.pairwise_spokes 0 _) (by
      simp only [List.pairwise_cons, comesFirst_iff, Prod.Lex.toLex_le_toLex]
      simp [hp, hq, hr, hpi])
  exact congrArg (List.map Prod.fst) hsorted

theorem tryReverse_facedAway : (facedAway.tryReverse 0).1 = true := by
  rw [tryReverse_fst_iff, mayTestReversal_iff]
  refine ⟨⟨rfl, Nat.le_refl 3, by decide, Nat.le_succ 2⟩, 36, 60, by decide, ?_⟩
  rw [alignmentScores?_eq (by decide) (by decide) (by decide), farMembers_facedAway]
  rfl

end Drawing

/-- The ring is reversed, and its scores of 36 and 60 are exchanged. -/
theorem Run.reversesForBetter_facingAway : ∃ start : Run ℝ,
    create Drawing.facingAway Drawing.ringOfThree = .ok start ∧ ReversesForBetter start ∧
      (start.drawing.tryReverse 0).1 = true :=
  ⟨_, create_of_build Drawing.build_facingAway,
    reversesForBetter (create_of_build Drawing.build_facingAway), Drawing.tryReverse_facedAway⟩

end RingLayout
