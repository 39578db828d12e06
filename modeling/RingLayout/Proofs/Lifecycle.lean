import RingLayout.Proofs.OnSchedule
import RingLayout.Proofs.Scalar.Real
import RingLayout.Proofs.Seating.Build

/-! # The life of a run

Whatever a caller does, stages and steps only go forward, a step that the simulation leaves has
used up its budget or has settled at the end of a cycle, and the simulation is over after finitely
many ticks.
-/

namespace RingLayout

namespace Run

variable {K : Type}

theorem isDone_iff (r : Run K) :
    r.isDone = true ↔ r.stage = .finished ∨ r.stage = .postProcessed := by
  unfold isDone
  cases r.stage <;> simp

theorem isDone_iff_rank (r : Run K) : r.isDone = true ↔ 2 ≤ r.stage.rank := by
  rw [isDone_iff]
  cases r.stage <;> simp [Stage.rank]

variable [Scalar K] {log : List Step} {r : Run K}

/-- What sequences of calls can and cannot do to a run that has just been created. -/
structure Lifecycle (start : Run K) (calls : List Call) : Prop where
  stage_forward : ∀ c, (start.afterAll calls).stage.rank ≤
    ((start.afterAll calls).after c).stage.rank
  step_forward : ∀ c, (start.afterAll calls).step.rank ≤ ((start.afterAll calls).after c).step.rank
  tick_iff : ∀ clock, ((start.afterAll calls).tick clock).1 = true ↔
    ((start.afterAll calls).tick clock).2.stage ≠ .simulating
  tick_iff_isDone : ∀ clock, ((start.afterAll calls).tick clock).1 = true ↔
    ((start.afterAll calls).tick clock).2.isDone = true
  isDone_stays : ∀ c, (start.afterAll calls).isDone = true →
    ((start.afterAll calls).after c).isDone = true
  /-- Every iteration counts. -/
  total_eq : (start.afterAll calls).totalIterations = (start.starts calls).length
  total_le : (start.afterAll calls).totalIterations ≤ start.totalBudget
  /-- All other ticks say that the simulation is over. -/
  openTicks_le : start.openTicks calls ≤ start.totalBudget
  /-- A step that the simulation leaves after an iteration has run as long as it may. -/
  left_ran : ∀ q ∈ start.starts calls, ∀ s : Step, q.step.rank ≤ s.rank →
    s.rank < q.iterate.step.rank → start.Ran s (((start.starts calls).map (·.step)).count s)
  /-- A step that the preparation of a simulation passes over has no budget and never runs. -/
  passed_ran : start.options.quality ≠ .draft → ∀ s : Step, s.rank < start.prerun.step.rank →
    start.budgetFor s = 0 ∧ ((start.starts calls).map (·.step)).count s = 0
  /-- Once a tick has said that the simulation is over, preparing and ticking change nothing. -/
  over_stays : ∀ clock, ((start.afterAll calls).tick clock).1 = true →
    ∀ later : List Call, (∀ c ∈ later, c ≠ .postrun) →
      ((start.afterAll calls).tick clock).2.afterAll later = ((start.afterAll calls).tick clock).2
  /-- After an ending nothing changes any more. -/
  ended_stays : (start.afterAll calls).stage ≠ .created →
    ∀ later, (start.afterAll calls).postrun.afterAll later = (start.afterAll calls).postrun
  /-- Nothing ends before the preparation. -/
  postrun_created : (start.afterAll calls).stage = .created →
    (start.afterAll calls).postrun = start.afterAll calls

theorem afterAll_eq_self {later : List Call} (h : ∀ c ∈ later, r.after c = r) :
    r.afterAll later = r := by
  induction later with
  | nil => rfl
  | cons c cs ih =>
      change (r.after c).afterAll cs = r
      rw [h c List.mem_cons_self]
      exact ih fun c hc => h c (List.mem_cons_of_mem _ hc)

/-- A run that is neither created nor simulating is changed by endings only. -/
theorem after_eq_self (hcreated : r.stage ≠ .created) (hsimulating : r.stage ≠ .simulating)
    {c : Call} (hc : c ≠ .postrun) : r.after c = r := by
  cases c with
  | prerun => exact prerun_of_ne hcreated
  | tick clock =>
      rw [after]
      simp only [tick, prerun_of_ne hcreated, if_neg hsimulating]
  | postrun => exact absurd rfl hc

theorem postrun_stage (hcreated : r.stage ≠ .created) : r.postrun.stage = .postProcessed := by
  unfold postrun
  split
  next heq => exact absurd heq hcreated
  next heq => exact heq
  next =>
    dsimp only
    split <;> rfl

theorem after_eq_self_of_postProcessed (h : r.stage = .postProcessed) (c : Call) :
    r.after c = r := by
  by_cases hc : c = .postrun
  · subst hc
    change r.postrun = r
    unfold postrun
    rw [h]
  · exact after_eq_self (by rw [h]; exact Stage.noConfusion) (by rw [h]; exact Stage.noConfusion) hc

/-- A tick ends in the simulation or after it. -/
theorem OnSchedule.tick_stage (h : OnSchedule log r) (clock : Clock) :
    (r.tick clock).2.stage ≠ .created := by
  have hprepared := Stage.rank_pos (prerun_stage_ne r)
  intro hcreated
  unfold tick at hcreated
  dsimp only at hcreated
  split at hcreated
  next hstage =>
    have hpath := path_iterations clock (max r.prerun.options.refresh 1) hstage
    have hforward := (h.prerun.path hpath).2.1
    rw [hcreated] at hforward
    exact absurd (Nat.le_trans hprepared hforward) (by decide)
  next => exact prerun_stage_ne r hcreated

theorem tick_fst_iff (r : Run K) (clock : Clock) :
    (r.tick clock).1 = true ↔ (r.tick clock).2.stage ≠ .simulating := by
  simp only [tick, decide_eq_true_eq]

/-- A step that the preparation of a simulation passes over has no budget. -/
theorem budgetFor_eq_zero_of_passed (h : OnSchedule log r) (hstage : r.stage = .created)
    (hquality : r.options.quality ≠ .draft) {s : Step} (hs : s.rank < r.prerun.step.rank) :
    r.budgetFor s = 0 := by
  rcases prerun_cases hstage with ⟨hdraft, -⟩ | ⟨hdraft, -⟩ | ⟨-, ⟨heq, -⟩ | ⟨heq, hbudget⟩⟩
  · exact absurd hdraft hquality
  · exact absurd hdraft hquality
  · rw [heq] at hs
    exact absurd hs (Nat.not_lt_zero _)
  · have hleaving := leaving_begun h hstage hbudget
    have hadvanced := advanced_advanceStep hleaving.stage_eq hleaving.step_ne
    have hran := hleaving.ran_passed hadvanced s (heq ▸ hs)
    rw [(h.created hstage).2] at hran
    have hoptions := options_prerun r
    rw [heq] at hoptions
    rcases hran.congr hoptions.symm with hzero | ⟨hpos, -⟩
    · exact hzero.symm
    · exact absurd hpos (Nat.lt_irrefl 0)

/-- A run is created on the drawing of its graph. -/
theorem create_eq_ok {g : Graph K} {o : Options K} {start : Run K} (h : create g o = .ok start) :
    ∃ d, Drawing.build g o = .ok d ∧ start = ofDrawing d o := by
  unfold create at h
  cases hbuild : Drawing.build g o with
  | error e =>
      rw [hbuild] at h
      cases h
  | ok d =>
      rw [hbuild] at h
      exact ⟨d, rfl, (Except.ok.inj h).symm⟩

theorem create_of_build {g : Graph K} {o : Options K} {d : Drawing K}
    (h : Drawing.build g o = .ok d) : create g o = .ok (ofDrawing d o) := by
  rw [create, h]
  rfl

theorem create_crossedPairs : create Drawing.crossedPairs Drawing.oneRing =
    .ok (ofDrawing (Drawing.ofClusters Drawing.crossedPairs Drawing.oneRing [[0, 1, 2, 3]])
      Drawing.oneRing) :=
  create_of_build Drawing.build_crossedPairs

/-- Whatever the calls are and whatever the clock says, a run that was created goes through its
life as it should. In exact arithmetic it iterates no more often than its options allow. -/
theorem lifecycle {g : Graph K} {o : Options K} {start : Run K} (h : create g o = .ok start)
    (calls : List Call) :
    Lifecycle start calls ∧ ∀ r : Run ℝ, r.totalBudget ≤ r.options.iterations := by
  refine ⟨?_, totalBudget_le_iterations⟩
  obtain ⟨d, -, rfl⟩ := create_eq_ok h
  have hstart := onSchedule_ofDrawing d o
  have hpath := (ofDrawing d o).path_afterAll calls
  have hoptions := options_path hstart hpath
  obtain ⟨hend, -, -⟩ := hstart.path hpath
  rw [List.nil_append] at hend
  have htotal : (ofDrawing d o).totalBudget = ((ofDrawing d o).afterAll calls).totalBudget := by
    simp only [totalBudget, budgetFor_congr hoptions]
  have hlength : ((ofDrawing d o).starts calls).length =
      ((ofDrawing d o).afterAll calls).totalIterations := by
    rw [hend.total_eq, List.length_map]
  constructor
  case stage_forward => exact fun c => (hend.path (path_after _ c)).2.1
  case step_forward => exact fun c => (hend.path (path_after _ c)).2.2
  case tick_iff => exact tick_fst_iff _
  case tick_iff_isDone =>
    intro clock
    have hcreated := hend.tick_stage clock
    rw [tick_fst_iff, isDone_iff]
    cases hstage : (((ofDrawing d o).afterAll calls).tick clock).2.stage <;> simp_all
  case isDone_stays =>
    intro c hdone
    rw [isDone_iff_rank] at hdone ⊢
    exact Nat.le_trans hdone (hend.path (path_after _ c)).2.1
  case total_eq => exact hlength.symm
  case total_le =>
    rw [htotal]
    exact hend.total_le
  case openTicks_le =>
    refine Nat.le_trans (openTicks_le _ calls) ?_
    rw [hlength, htotal]
    exact hend.total_le
  case left_ran =>
    intro q hq s hle hlt
    have hran := hstart.ran_of_left hpath q hq s hle hlt
    rwa [List.nil_append] at hran
  case passed_ran =>
    intro hquality s hs
    have hzero := budgetFor_eq_zero_of_passed hstart rfl hquality hs
    have hcount := hend.count_le s
    rw [budgetFor_congr hoptions, hzero] at hcount
    exact ⟨hzero, Nat.le_zero.mp hcount⟩
  case over_stays =>
    intro clock hover later hlater
    have hsimulating := (tick_fst_iff _ clock).mp hover
    exact afterAll_eq_self fun c hc =>
      after_eq_self (hend.tick_stage clock) hsimulating (hlater c hc)
  case ended_stays =>
    intro hcreated later
    exact afterAll_eq_self fun c _ => after_eq_self_of_postProcessed (postrun_stage hcreated) c
  case postrun_created =>
    intro hcreated
    unfold postrun
    rw [hcreated]

theorem lifecycle_crossedPairs :
    ∃ start : Run Float, create Drawing.crossedPairs Drawing.oneRing = .ok start ∧
      Lifecycle start [.postrun, .prerun, .tick fun _ => 0, .postrun, .prerun] :=
  ⟨_, create_crossedPairs, (lifecycle create_crossedPairs _).1⟩

end Run

end RingLayout
