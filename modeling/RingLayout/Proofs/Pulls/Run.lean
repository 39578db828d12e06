import RingLayout.Proofs.Lengths
import RingLayout.Proofs.Pulls

/-! # Pulls in the course of a run

The iterations of the exchange step come in periods of 25. In the last but five of a period the
rules of the exchanges are worked out anew; from it on pulls are gathered in five iterations, and
in the next one exchanges are carried out with them, after which nothing is left of the pulls. Until
then no order changes, so the exchanges go by rules for the present orders.
-/

namespace RingLayout.Run

open Drawing (Unpulled SameRules steady_pull hidesRules_pull)

variable {K : Type} [Scalar K] {members : Nat → List Nat} {o : Options K} {built d : Drawing K}
  {r p : Run K} {qs ps : List (Run K)}

/-! ## One iteration -/

/-- The drawing in an iteration, with the forces that are about to move it. -/
def forced (r : Run K) : Drawing K :=
  Drawing.gatherForces r.forces r.connected
    (if r.countIteration.phase = .beginGathering then r.drawing.refreshExchanges else r.drawing)

/-- The cooled pull that a member of a ring is under in an iteration. -/
def cooledPull (r : Run K) (c v : Nat) : K :=
  r.countIteration.cooling.factor * r.forced.pullAlong c v

theorem phase_turned (r : Run K) : r.turned.phase = r.countIteration.phase := by
  unfold turned
  rw [reverseRings_eq]
  rfl

/-- Only the exchange step has phases other than the idle one. -/
theorem phase_of_ne (hstep : r.step ≠ .exchange) : r.countIteration.phase = .idle :=
  if_neg hstep

theorem phase_of_exchange (hstep : r.step = .exchange) : r.countIteration.phase =
    if r.stepIteration % 25 < 19 then .idle
    else if r.stepIteration % 25 = 19 then .beginGathering
    else if r.stepIteration % 25 < 24 then .gathering
    else .carryOut :=
  if_pos hstep

theorem turned_of_ne_reverse (hstep : r.step ≠ .reverse) : r.turned.drawing =
    (r.forced.move r.countIteration.cooling.factor r.countIteration.phase.gathers).1 := by
  have hsame : r.countIteration.moveBodies.step ≠ .reverse := hstep
  rw [turned, reverseRings, if_neg fun h => hsame h.1]
  rfl

theorem worked_of_ne_carryOut (hphase : r.countIteration.phase ≠ .carryOut) :
    r.worked.drawing = r.turned.drawing := by
  change r.turned.exchangeNeighbors.drawing = r.turned.drawing
  rw [exchangeNeighbors, if_neg (r.phase_turned.symm ▸ hphase)]

theorem worked_of_carryOut (hphase : r.countIteration.phase = .carryOut) :
    r.worked.drawing = (r.turned.drawing.performExchanges r.memory).2.1 := by
  change r.turned.exchangeNeighbors.drawing = _
  rw [exchangeNeighbors_drawing (r.phase_turned.trans hphase), r.turned_eq.2]

theorem unpulled_turned (hd : Unpulled r.drawing)
    (hphase : r.countIteration.phase.gathers = false) : Unpulled r.turned.drawing := by
  refine hd.alike (keeps_turned steady_pull hidesRules_pull r fun hgathers => ?_).toAlike
  rw [hphase] at hgathers
  cases hgathers

theorem skeleton_forced (r : Run K) : r.forced.skeleton = r.drawing.skeleton := by
  rw [forced, Drawing.skeleton_gatherForces]
  split
  · exact r.drawing.skeleton_refreshExchanges
  · rfl

/-- An iteration in which rules are not worked out moves the drawing under the old ones. -/
theorem sameRules_turned (hstep : r.step = .exchange)
    (hphase : r.countIteration.phase ≠ .beginGathering) :
    SameRules r.drawing r.turned.drawing := by
  have hforced : SameRules r.drawing r.forced := by
    rw [forced, if_neg hphase]
    exact Drawing.sameRules_gatherForces r.forces r.connected r.drawing
  rw [turned_of_ne_reverse (hstep ▸ Step.noConfusion)]
  exact hforced.trans (Drawing.sameRules_move _ _ _)

theorem sameRules_turned_of_begin (hstep : r.step = .exchange)
    (hphase : r.countIteration.phase = .beginGathering) :
    SameRules r.drawing.refreshExchanges r.turned.drawing := by
  have hforced : SameRules r.drawing.refreshExchanges r.forced := by
    rw [forced, if_pos hphase]
    exact Drawing.sameRules_gatherForces r.forces r.connected _
  rw [turned_of_ne_reverse (hstep ▸ Step.noConfusion)]
  exact hforced.trans (Drawing.sameRules_move _ _ _)

/-- Working out rules and gathering forces change no pull. -/
theorem pull_forced (r : Run K) (v : Nat) : (r.forced.body v).pull = (r.drawing.body v).pull := by
  rw [forced, (Drawing.keeps_gatherForces steady_pull _ _ _).view_eq]
  split
  · exact (Drawing.keeps_refreshExchanges hidesRules_pull _).view_eq v
  · rfl

theorem figure_forced (r : Run K) : r.forced.figure = r.drawing.figure := by
  rw [forced, Drawing.figure_gatherForces]
  split
  · exact r.drawing.figure_refreshExchanges
  · rfl

/-- A member on its circle is pulled by the forces of the iteration. -/
theorem cooledPull_eq {r : Run ℝ} {c v : Nat} (h : Drawing.OnCircle r.drawing c)
    (hv : v ∈ (r.drawing.ring c).order) (hradius : 1e-9 ≤ (r.drawing.ring c).radius) :
    r.cooledPull c v = r.countIteration.cooling.factor *
      Drawing.forceAlong (r.forced.body v) (r.drawing.angleOf v) := by
  have hkeeps := Drawing.keepsRing_of_figure r.figure_forced c
  have hv' : v ∈ (r.forced.ring c).order := hkeeps.order_eq.symm ▸ hv
  rw [cooledPull, (hkeeps.onCircle h).pullAlong_eq hv' (hkeeps.radius_eq.symm ▸ hradius),
    hkeeps.angle_eq v hv]

/-- In an iteration that gathers, every member on a ring adds its cooled pull. -/
theorem pull_turned (hd : r.drawing.skeleton.Sound members) (hstep : r.step = .exchange)
    (hphase : r.countIteration.phase.gathers = true) {c v : Nat}
    (hv : v ∈ (r.turned.drawing.ring c).order) :
    (r.turned.drawing.body v).pull = (r.drawing.body v).pull + r.cooledPull c v := by
  have hforced : r.forced.skeleton.Sound members := r.skeleton_forced.symm ▸ hd
  rw [turned_of_ne_reverse (hstep ▸ Step.noConfusion), hphase] at hv ⊢
  have hv' : v ∈ (r.forced.ring c).order := by
    change v ∈ ((r.forced.move r.countIteration.cooling.factor true).1.skeleton.ring c).order at hv
    rwa [Drawing.skeleton_move] at hv
  rw [Drawing.pull_move hforced hv', pull_forced]
  rfl

/-! ## A stretch of gathering -/

/-- What has been gathered since an iteration worked out the rules of the exchanges: the pulls of
this iteration and of others after it. The orders have not changed since then. -/
structure Gathering (p : Run K) (ps : List (Run K)) (d : Drawing K) : Prop where
  begins : p.countIteration.phase = .beginGathering
  gathers : ∀ x ∈ ps, x.countIteration.phase = .gathering
  /-- The rules and the orders, in the iterations so far. -/
  steady : ∀ x ∈ p :: ps, SameRules p.drawing.refreshExchanges x.turned.drawing
  sameRules : SameRules p.drawing.refreshExchanges d
  /-- The orders that the rules were worked out for are the present ones. -/
  observedOrder_eq : ∀ c < d.rings.size, (d.ring c).observedOrder = some (d.ring c).order
  pull_eq : ∀ c, ∀ v ∈ (d.ring c).order,
    (d.body v).pull = Scalar.sum ((p :: ps).map fun x => x.cooledPull c v)

theorem observedOrder_of_sameRules (h : SameRules r.drawing.refreshExchanges d) :
    ∀ c < d.rings.size, (d.ring c).observedOrder = some (d.ring c).order := by
  intro c hc
  have hring : d.ring c = r.drawing.refreshExchanges.ring c :=
    Drawing.ring_of_rings h.rings_eq c
  have hsize : r.drawing.refreshExchanges.rings.size = r.drawing.rings.size :=
    congrArg Skeleton.ringCount r.drawing.skeleton_refreshExchanges
  rw [h.rings_eq, hsize] at hc
  rw [hring, Drawing.observedOrder_refreshExchanges hc]

theorem sum_concat (xs : List K) (x : K) : Scalar.sum (xs ++ [x]) = Scalar.sum xs + x := by
  rw [Scalar.sum, List.foldl_append]
  rfl

theorem gathering_begin (hd : r.drawing.skeleton.Sound members) (hstep : r.step = .exchange)
    (hphase : r.countIteration.phase = .beginGathering) (hunpulled : Unpulled r.drawing) :
    Gathering r [] r.turned.drawing := by
  have hrules := sameRules_turned_of_begin hstep hphase
  constructor
  case begins => exact hphase
  case gathers => exact fun x hx => absurd hx List.not_mem_nil
  case steady =>
    intro x hx
    rwa [List.mem_singleton.mp hx]
  case sameRules => exact hrules
  case observedOrder_eq => exact observedOrder_of_sameRules hrules
  case pull_eq =>
    intro c v hv
    rw [pull_turned hd hstep (hphase.symm ▸ rfl) hv, hunpulled]
    rfl

/-- A gathering goes on for another iteration. -/
theorem Gathering.concat (h : Gathering p ps r.drawing) (hd : r.drawing.skeleton.Sound members)
    (hstep : r.step = .exchange) (hphase : r.countIteration.phase = .gathering) :
    Gathering p (ps ++ [r]) r.turned.drawing := by
  have hmove := sameRules_turned hstep (hphase.symm ▸ ExchangePhase.noConfusion)
  have hrules := h.sameRules.trans hmove
  constructor
  case begins => exact h.begins
  case gathers =>
    intro x hx
    rcases List.mem_append.mp hx with hold | hnew
    · exact h.gathers x hold
    · rwa [List.mem_singleton.mp hnew]
  case steady =>
    intro x hx
    rcases List.mem_append.mp (List.cons_append ▸ hx) with hold | hnew
    · exact h.steady x hold
    · rwa [List.mem_singleton.mp hnew]
  case sameRules => exact hrules
  case observedOrder_eq => exact observedOrder_of_sameRules hrules
  case pull_eq =>
    intro c v hv
    have hv' : v ∈ (r.drawing.ring c).order := by
      have hring : r.turned.drawing.ring c = r.drawing.ring c :=
        Drawing.ring_of_rings hmove.rings_eq c
      rwa [hring] at hv
    rw [pull_turned hd hstep (hphase.symm ▸ rfl) hv, h.pull_eq c v hv', ← List.cons_append,
      List.map_append, List.map_singleton, sum_concat]

/-- What has been gathered is there when exchanges are carried out. -/
theorem Gathering.turned (h : Gathering p ps r.drawing) (hstep : r.step = .exchange)
    (hphase : r.countIteration.phase = .carryOut) : Gathering p ps r.turned.drawing := by
  have hmove := sameRules_turned hstep (hphase.symm ▸ ExchangePhase.noConfusion)
  have hrules := h.sameRules.trans hmove
  refine ⟨h.begins, h.gathers, h.steady, hrules, observedOrder_of_sameRules hrules, ?_⟩
  intro c v hv
  have hring : r.turned.drawing.ring c = r.drawing.ring c :=
    Drawing.ring_of_rings hmove.rings_eq c
  have hkeeps := keeps_turned steady_pull hidesRules_pull r fun hgathers => by
    rw [hphase] at hgathers
    cases hgathers
  rw [hring] at hv
  rw [hkeeps.view_eq]
  exact h.pull_eq c v hv

/-! ## The record of gathering -/

/-- The number of iterations before the present one whose pulls have been gathered. -/
def gathered (r : Run K) : Nat := if r.step = .exchange then r.stepIteration % 25 - 19 else 0

/-- What the iterations before the present one have gathered, as far as the exchanges. -/
def Balanced (qs : List (Run K)) (r : Run K) : Prop :=
  r.gathered = 0 ∧ Unpulled r.drawing ∨ ∃ first p ps, qs = first ++ p :: ps ∧
    ps.length + 1 = r.gathered ∧ Gathering p ps r.drawing

/-- A gathering begins with nothing gathered, and exchanges are carried out after five iterations
of it. -/
theorem gathered_of_phase (hstep : r.step = .exchange) :
    (r.countIteration.phase = .beginGathering → r.gathered = 0) ∧
      (r.countIteration.phase = .carryOut → r.gathered = 5) := by
  have hlt := Nat.mod_lt r.stepIteration (show 25 > 0 by decide)
  rw [phase_of_exchange hstep, gathered, if_pos hstep]
  repeat' split
  all_goals refine ⟨fun hphase => ?_, fun hphase => ?_⟩ <;> first | omega | cases hphase

omit [Scalar K] in
theorem gathered_of_ne (hstep : r.step ≠ .exchange) : r.gathered = 0 := if_neg hstep

theorem Balanced.unpulled (h : Balanced qs r) (hnone : r.gathered = 0) : Unpulled r.drawing := by
  rcases h with ⟨-, hunpulled⟩ | ⟨first, p, ps, -, hlength, -⟩
  · exact hunpulled
  · omega

/-- The work of an iteration of the exchange step goes on with the gathering, begins it, or clears
what has been gathered. -/
theorem Balanced.worked (h : Balanced qs r) (hd : r.drawing.skeleton.Sound members)
    (hstep : r.step = .exchange) {w : Run K} (hw : w.drawing = r.worked.drawing)
    (hsame : w.step = r.step) (hcount : w.stepIteration = r.stepIteration + 1) :
    Balanced (qs ++ [r]) w := by
  have hgathered : r.gathered = r.stepIteration % 25 - 19 := if_pos hstep
  have hafter : w.gathered = (r.stepIteration + 1) % 25 - 19 := by
    rw [gathered, if_pos (hsame.trans hstep), hcount]
  have hlt := Nat.mod_lt r.stepIteration (show 25 > 0 by decide)
  have hphase := phase_of_exchange hstep
  -- by where in its period the iteration is: the last one clears, and the five before it gather
  by_cases hcarry : r.stepIteration % 25 = 24
  · have hcarryOut : r.countIteration.phase = .carryOut := by
      rw [hphase, hcarry]
      rfl
    left
    refine ⟨by omega, ?_⟩
    rw [hw, worked_of_carryOut hcarryOut]
    exact Drawing.unpulled_performExchanges (crossings_turned hd.seated).1.seated _
  · have hwork : w.drawing = r.turned.drawing := by
      rw [hw, worked_of_ne_carryOut]
      rw [hphase]
      repeat' split
      all_goals first | exact ExchangePhase.noConfusion | omega
    by_cases hidle : r.stepIteration % 25 < 19
    · left
      refine ⟨by omega, ?_⟩
      rw [hwork]
      apply unpulled_turned (h.unpulled (by omega))
      rw [hphase, if_pos hidle]
      rfl
    · right
      by_cases hbegin : r.stepIteration % 25 = 19
      · refine ⟨qs, r, [], rfl, by simp only [List.length_nil]; omega, ?_⟩
        rw [hwork]
        apply gathering_begin hd hstep
        case hphase => rw [hphase, if_neg hidle, if_pos hbegin]
        case hunpulled => exact h.unpulled (by omega)
      · rcases h with ⟨hnone, -⟩ | ⟨first, p, ps, hqs, hlength, hgathering⟩
        · omega
        · refine ⟨first, p, ps ++ [r], by rw [hqs, List.append_assoc, List.cons_append], ?_, ?_⟩
          · rw [List.length_append, List.length_singleton]
            omega
          · rw [hwork]
            apply hgathering.concat hd hstep
            rw [hphase, if_neg hidle, if_neg hbegin, if_pos (by omega)]

/-! ## Going on to another step -/

/-- Nothing has been gathered when a run goes on to a step up to the exchanges. -/
theorem unpulled_advanceStep (hstage : r.stage = .simulating) (hstep : r.step ≠ .done)
    (hunpulled : r.step.rank < Step.exchange.rank → Unpulled r.drawing)
    (hsimulating : r.advanceStep.stage = .simulating)
    (hrank : r.advanceStep.step.rank ≤ Step.exchange.rank) : Unpulled r.advanceStep.drawing := by
  have hall := advanceStepBy_induct (P := fun ws r => r.stage = .simulating →
    r.step.rank ≤ Step.exchange.rank → (ws = [] → r.step ≠ .exchange) → Unpulled r.drawing)
      6 [] hstage hstep
  -- the exchanges may be left with pulls, but the way on is to the last step then
  refine hall ?h ?hnext ?hover hsimulating hrank fun hnil => absurd hnil (List.cons_ne_nil _ _)
  case h =>
    intro _ hrank hexchange
    exact hunpulled (Nat.lt_of_le_of_ne hrank fun heq => hexchange rfl (Step.rank_inj.mp heq))
  case hnext =>
    intro ws r hstage hstep h _ hrank _
    rw [step_leaveStep] at hrank ⊢
    have hlt : r.step.rank < Step.exchange.rank := (Step.rank_next hstep).symm.trans_le hrank
    have hexchange : r.step ≠ .exchange := fun heq => absurd (heq ▸ hlt) (Nat.lt_irrefl _)
    have hpolish : r.step.next ≠ .polish := by
      intro heq
      rw [heq] at hrank
      have hpast : ¬Step.polish.rank ≤ Step.exchange.rank := by decide
      exact hpast hrank
    rw [leaveStep_of_ne hexchange]
    exact (h hstage hlt.le fun _ => hexchange).alike
      (keeps_prepareFor hidesRules_pull r.options hpolish r.drawing).toAlike
  case hover =>
    intro ws r r' _ _ hover _ hstage
    rw [hover] at hstage
    cases hstage

theorem balanced_advanceStep (hstage : r.stage = .simulating) (hstep : r.step ≠ .done)
    (hunpulled : r.step.rank < Step.exchange.rank → Unpulled r.drawing)
    (hsimulating : r.advanceStep.stage = .simulating)
    (hrank : r.advanceStep.step.rank ≤ Step.exchange.rank) : Balanced qs r.advanceStep := by
  refine Or.inl ⟨?_, unpulled_advanceStep hstage hstep hunpulled hsimulating hrank⟩
  rcases (advanced_advanceStep hstage hstep).next with ⟨hfinished, -⟩ | ⟨-, -, hnone, -⟩
  · rw [hfinished] at hsimulating
    cases hsimulating
  · rw [gathered, hnone]
    split <;> rfl

/-! ## All of a run -/

theorem unpulled_begun (hd : Unpulled r.drawing) : Unpulled r.begun.drawing := by
  rw [(begun_eq r).2.2.2]
  exact hd.alike (alike_placed steady_pull r)

theorem balanced_prerun (hcreated : r.stage = .created) (hd : Unpulled r.drawing)
    (hstage : r.prerun.stage = .simulating) (hrank : r.prerun.step.rank ≤ Step.exchange.rank) :
    Balanced [] r.prerun := by
  obtain ⟨-, hbegun, hstep, -⟩ := begun_eq r
  rcases prerunLeavings_cases hcreated with ⟨hfinished, -⟩ | ⟨heq, -⟩ | ⟨heq, -⟩
  · rw [hfinished] at hstage
    cases hstage
  · rw [heq]
    exact Or.inl ⟨gathered_of_ne (hstep ▸ Step.noConfusion), unpulled_begun hd⟩
  · rw [heq] at hstage hrank ⊢
    exact balanced_advanceStep hbegun (hstep ▸ Step.noConfusion) (fun _ => unpulled_begun hd)
      hstage hrank

theorem Balanced.iterate (h : r.step.rank ≤ Step.exchange.rank → Balanced qs r)
    (hd : r.drawing.skeleton.Sound members) (hstage : r.stage = .simulating)
    (hstep : r.step ≠ .done) (hsimulating : r.iterate.stage = .simulating)
    (hrank : r.iterate.step.rank ≤ Step.exchange.rank) : Balanced (qs ++ [r]) r.iterate := by
  have hidle : r.step.rank < Step.exchange.rank → Unpulled r.worked.drawing := by
    intro hlt
    have hexchange : r.step ≠ .exchange := fun heq => absurd (heq ▸ hlt) (Nat.lt_irrefl _)
    have hphase := phase_of_ne hexchange
    rw [worked_of_ne_carryOut (hphase.symm ▸ ExchangePhase.noConfusion)]
    refine unpulled_turned ?_ (hphase.symm ▸ rfl)
    exact (h hlt.le).unpulled (gathered_of_ne hexchange)
  obtain ⟨w, hdrawing, hsame, hstage', -, hcount, ⟨heq, -⟩ | ⟨heq, -⟩⟩ := r.iterationLeavings_cases
  · rw [heq, hsame] at hrank
    rw [heq]
    by_cases hexchange : r.step = .exchange
    · exact (h hrank).worked hd hexchange hdrawing hsame hcount
    · have hlt : r.step.rank < Step.exchange.rank :=
        Nat.lt_of_le_of_ne hrank fun hsame => hexchange (Step.rank_inj.mp hsame)
      refine Or.inl ⟨gathered_of_ne (hsame.symm ▸ hexchange), ?_⟩
      rw [hdrawing]
      exact hidle hlt
  · rw [heq] at hsimulating hrank ⊢
    refine balanced_advanceStep (hstage'.trans hstage) (hsame.symm ▸ hstep) (fun hlt => ?_)
      hsimulating hrank
    rw [hdrawing]
    exact hidle (hsame ▸ hlt)

theorem lasting_balanced (hbuilt : built.skeleton.Sound members) :
    Lasting o members built fun qs r => r.stage = .simulating →
      r.step.rank ≤ Step.exchange.rank → Balanced qs r where
  iterate qs r hinformed hdescends hstage h hsimulating hrank := by
    exact .iterate (h hstage) (hdescends.moves.sound hbuilt) hstage
      (hinformed.step_ne_done hstage) hsimulating hrank
  stop _ _ _ _ _ _ hstage := Stage.noConfusion hstage
  postrun qs r _ _ hcreated _ hstage := by
    rw [postrun_stage hcreated] at hstage
    cases hstage

/-- Pulls are gathered in five iterations and then used up, without a change to orders and rules
on the way. -/
structure GathersPulls (start : Run K) : Prop where
  /-- Nothing has been gathered where a gathering begins. -/
  unpulled : ∀ calls, ∀ q ∈ start.starts calls, q.countIteration.phase = .beginGathering →
    ∀ v, ∀ s, (q.drawing.body v).role = .seated s → s.pull = 0.0
  /-- Exchanges are carried out with the pulls of the five iterations before. -/
  carryOut : ∀ calls before q later, start.starts calls = before ++ q :: later →
    q.countIteration.phase = .carryOut →
      q.worked.drawing = (q.turned.drawing.performExchanges q.memory).2.1 ∧
        ∃ first p ps, before = first ++ p :: ps ∧ ps.length = 4 ∧
          Gathering p ps q.turned.drawing

/-- In every run pulls go by the phases of the exchange step. -/
theorem gathersPulls {g : Graph K} {o : Options K} {start : Run K} (h : create g o = .ok start) :
    GathersPulls start := by
  obtain ⟨built, hbuild, rfl⟩ := create_eq_ok h
  have hsound := Drawing.sound_build hbuild
  have hrecord := (lasting_balanced (o := o) hsound).afterAll hbuild
    (balanced_prerun (r := ofDrawing built o) rfl (Drawing.unpulled_build hbuild))
  have hbalanced : ∀ calls before q later, (ofDrawing built o).starts calls = before ++ q :: later →
      q.countIteration.phase ≠ .idle → q.step = .exchange ∧ Balanced before q := by
    intro calls before q later heq hphase
    obtain ⟨hstage, hattained⟩ := (hrecord calls).2 before q later heq
    have hstep : q.step = .exchange := by
      by_contra hne
      exact hphase (phase_of_ne hne)
    exact ⟨hstep, hattained.holds hstage (hstep ▸ Nat.le_refl _)⟩
  constructor
  case unpulled =>
    intro calls q hq hphase v s hs
    obtain ⟨before, later, heq⟩ := List.append_of_mem hq
    obtain ⟨hstep, hbefore⟩ := hbalanced calls before q later heq
      (hphase.symm ▸ ExchangePhase.noConfusion)
    have hpull := hbefore.unpulled ((gathered_of_phase hstep).1 hphase) v
    rwa [Body.pull, Body.seat?, hs] at hpull
  case carryOut =>
    intro calls before q later heq hphase
    obtain ⟨hstep, hbefore⟩ := hbalanced calls before q later heq
      (hphase.symm ▸ ExchangePhase.noConfusion)
    have hfive := (gathered_of_phase hstep).2 hphase
    refine ⟨worked_of_carryOut hphase, ?_⟩
    rcases hbefore with ⟨hnone, -⟩ | ⟨first, p, ps, hqs, hlength, hgathering⟩
    · omega
    · exact ⟨first, p, ps, hqs, by omega, hgathering.turned hstep hphase⟩

/-- In exact arithmetic the members are on their circles in all iterations. So what they gather are
the forces on them along these circles. -/
theorem cooledPull_starts {g : Graph ℝ} {o : Options ℝ} {built : Drawing ℝ}
    (h : Drawing.build g o = .ok built) (hplaces : o.PlacesRings) (calls : List Call) :
    ∀ q ∈ (ofDrawing built o).starts calls, ∀ c, ∀ v ∈ (q.drawing.ring c).order,
      1e-9 ≤ (q.drawing.ring c).radius → q.cooledPull c v = q.countIteration.cooling.factor *
        Drawing.forceAlong (q.forced.body v) (q.drawing.angleOf v) :=
  fun q hq c _ hv hradius =>
    cooledPull_eq (((keepsCircles h).starts hplaces calls q hq).onCircle c) hv hradius

/-- In the tangle's run, where a link leads out of the ring, exchanges are carried out. -/
theorem gathersPulls_tangle : ∃ start : Run ℝ,
    create Drawing.tangle (Drawing.tangledRing 100) = .ok start ∧ GathersPulls start ∧
      ∃ calls, ∃ q ∈ start.starts calls, q.countIteration.phase = .carryOut := by
  have hcreate := create_of_build (Drawing.build_tangle 100)
  obtain ⟨calls, hexchange⟩ := exists_calls_exchange_tangled
  have hphase := phase_of_exchange hexchange.step_eq
  rw [hexchange.stepIteration_eq] at hphase
  have hstarts := (hexchange.after_tick rfl rfl fun _ => 0).2
  refine ⟨_, hcreate, gathersPulls hcreate, (.prerun :: calls) ++ [.tick fun _ => 0], _, ?_, hphase⟩
  rw [starts_append, starts]
  exact List.mem_append_right _ (List.mem_append_left _ (hstarts ▸ List.mem_singleton_self _))

end RingLayout.Run
