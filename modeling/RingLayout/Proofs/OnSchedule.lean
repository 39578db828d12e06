import RingLayout.Proofs.Calls

/-! # Runs on schedule

The steps of the iterations so far say where a run must be: which steps it has left and for how
long they ran, and how much of the current one is gone. Every elementary change of a run keeps to
this, and on a path stages and steps only go forward.
-/

namespace RingLayout

namespace Run

variable {K : Type}

theorem count_eq_zero_of_rank {log : List Step} {n : Nat} (hlog : ∀ s ∈ log, s.rank ≤ n) {s : Step}
    (hs : n < s.rank) : log.count s = 0 :=
  List.count_eq_zero.mpr fun hmem => Nat.not_lt.mpr (hlog s hmem) hs

variable [Scalar K]

/-- The numbers of iterations after which the simulation leaves a step: all of its budget or, at
the end of a cycle, a part of it. Exchanges use up a quarter of theirs at least. -/
def Ran (r : Run K) (s : Step) (iterations : Nat) : Prop :=
  iterations = r.budgetFor s ∨
    0 < iterations ∧ iterations < r.budgetFor s ∧ Cooling.period ∣ iterations ∧
      (s = .exchange → r.budgetFor s ≤ 4 * iterations)

theorem Ran.le {r : Run K} {s : Step} {n : Nat} (h : r.Ran s n) : n ≤ r.budgetFor s := by
  rcases h with rfl | ⟨-, hlt, -⟩
  · exact Nat.le_refl _
  · exact Nat.le_of_lt hlt

theorem Ran.congr {r r' : Run K} {s : Step} {n : Nat} (hoptions : r'.options = r.options)
    (h : r.Ran s n) : r'.Ran s n := by
  rw [Ran, budgetFor_congr hoptions]
  exact h

/-- A run agrees with the steps of the iterations that it has gone through. -/
structure OnSchedule (log : List Step) (r : Run K) : Prop where
  total_eq : r.totalIterations = log.length
  log_le : ∀ s ∈ log, s.rank ≤ r.step.rank
  done_not_mem : Step.done ∉ log
  count_le : ∀ s, log.count s ≤ r.budgetFor s
  created : r.stage = .created → r.step = .settle ∧ log = []
  active : r.stage = .simulating → r.step ≠ .done ∧ r.stepBudget = r.budgetFor r.step ∧
    r.stepIteration < r.stepBudget ∧ log.count r.step = r.stepIteration
  left : r.stage = .simulating → ∀ s : Step, s.rank < r.step.rank → r.Ran s (log.count s)

/-- A simulation that is about to leave a step. -/
structure Leaving (log : List Step) (r : Run K) : Prop where
  total_eq : r.totalIterations = log.length
  log_le : ∀ s ∈ log, s.rank ≤ r.step.rank
  done_not_mem : Step.done ∉ log
  stage_eq : r.stage = .simulating
  step_ne : r.step ≠ .done
  ran : ∀ s : Step, s.rank ≤ r.step.rank → r.Ran s (log.count s)

variable {log : List Step} {r r' : Run K}

namespace Leaving

/-- All steps that are passed on the way to the next one have run. -/
theorem ran_passed (h : Leaving log r) (hadvanced : Advanced r r') (s : Step)
    (hs : s.rank < r'.step.rank) : r'.Ran s (log.count s) := by
  refine Ran.congr hadvanced.course.options_eq ?_
  by_cases hle : s.rank ≤ r.step.rank
  · exact h.ran s hle
  · have hlt := Nat.lt_of_not_le hle
    rw [count_eq_zero_of_rank h.log_le hlt]
    exact Or.inl (hadvanced.passed s hlt hs).symm

/-- A run that has gone on to the next step is on schedule. -/
theorem onSchedule (h : Leaving log r) (hadvanced : Advanced r r') : OnSchedule log r' := by
  have hbudget := budgetFor_congr hadvanced.course.options_eq
  have hlog : ∀ s ∈ log, s.rank ≤ r'.step.rank := fun s hs =>
    Nat.le_trans (h.log_le s hs) (Nat.le_of_lt hadvanced.rank_lt)
  constructor
  case total_eq => exact hadvanced.course.total_eq.trans h.total_eq
  case log_le => exact hlog
  case done_not_mem => exact h.done_not_mem
  case count_le =>
    intro s
    by_cases hs : s.rank ≤ r.step.rank
    · rw [hbudget]
      exact (h.ran s hs).le
    · rw [count_eq_zero_of_rank h.log_le (Nat.lt_of_not_le hs)]
      exact Nat.zero_le _
  case created =>
    intro hcreated
    rcases hadvanced.next with ⟨hstage, -⟩ | ⟨hstage, -⟩ <;> rw [hstage] at hcreated <;>
      cases hcreated
  case active =>
    intro hstage
    rcases hadvanced.next with ⟨hfinished, -⟩ | ⟨-, hstep, hiteration, hbudget', hpos⟩
    · rw [hfinished] at hstage
      cases hstage
    · refine ⟨hstep, hbudget'.trans (hbudget _).symm, ?_, ?_⟩
      · rw [hiteration]
        exact hpos
      · rw [hiteration]
        exact count_eq_zero_of_rank h.log_le hadvanced.rank_lt
  case left => exact fun _ => h.ran_passed hadvanced

end Leaving

/-! ## The elementary changes -/

theorem onSchedule_ofDrawing (d : Drawing K) (o : Options K) : OnSchedule [] (ofDrawing d o) where
  total_eq := rfl
  log_le := by simp
  done_not_mem := by simp
  count_le := fun _ => Nat.zero_le _
  created := fun _ => ⟨rfl, rfl⟩
  active := fun h => by cases h
  left := fun h => by cases h

/-- A run that has stopped is on schedule whatever its step is. -/
theorem OnSchedule.stopped (h : OnSchedule log r) (hoptions : r'.options = r.options)
    (htotal : r'.totalIterations = r.totalIterations) (hrank : r.step.rank ≤ r'.step.rank)
    (hstage : r'.stage = .finished ∨ r'.stage = .postProcessed) : OnSchedule log r' where
  total_eq := htotal.trans h.total_eq
  log_le := fun s hs => Nat.le_trans (h.log_le s hs) hrank
  done_not_mem := h.done_not_mem
  count_le := fun s => by
    rw [budgetFor_congr hoptions]
    exact h.count_le s
  created := fun heq => by rcases hstage with hstage | hstage <;> rw [hstage] at heq <;> cases heq
  active := fun heq => by rcases hstage with hstage | hstage <;> rw [hstage] at heq <;> cases heq
  left := fun heq => by rcases hstage with hstage | hstage <;> rw [hstage] at heq <;> cases heq

theorem OnSchedule.stop (h : OnSchedule log r) : OnSchedule log r.stop :=
  h.stopped rfl rfl (Step.rank_le _) (Or.inl rfl)

theorem postrun_cases (r : Run K) :
    r.postrun = r ∨
      r.stage ≠ .created ∧ r.stage ≠ .postProcessed ∧
        ∃ d, r.postrun = { r with stage := .postProcessed, drawing := d } := by
  unfold postrun
  split
  · exact Or.inl rfl
  · exact Or.inl rfl
  next hcreated hpost =>
    refine Or.inr ⟨hcreated, hpost, ?_⟩
    dsimp only
    split
    · exact ⟨r.drawing, rfl⟩
    · exact ⟨_, rfl⟩

theorem OnSchedule.postrun (h : OnSchedule log r) : OnSchedule log r.postrun := by
  rcases r.postrun_cases with heq | ⟨-, -, d, heq⟩
  · rw [heq]
    exact h
  · rw [heq]
    exact h.stopped rfl rfl (Nat.le_refl _) (Or.inr rfl)

/-- The simulation begins on schedule, and a first step without budget has run as well. -/
theorem leaving_begun (h : OnSchedule log r) (hstage : r.stage = .created)
    (hbudget : r.begun.stepBudget = 0) : Leaving log r.begun := by
  obtain ⟨d, random, connected, hplaced⟩ := r.placed_eq
  obtain ⟨hstep, rfl⟩ := h.created hstage
  constructor
  case total_eq =>
    unfold begun
    rw [hplaced]
    exact h.total_eq
  case log_le => simp
  case done_not_mem => simp
  case stage_eq => rfl
  case step_ne => exact Step.noConfusion
  case ran =>
    intro s hs
    have hsettle : s = .settle := Step.rank_inj.mp (Nat.le_zero.mp hs)
    rw [hsettle]
    exact Or.inl hbudget.symm

theorem onSchedule_begun (h : OnSchedule log r) (hstage : r.stage = .created)
    (hbudget : 0 < r.begun.stepBudget) : OnSchedule log r.begun := by
  obtain ⟨d, random, connected, hplaced⟩ := r.placed_eq
  obtain ⟨hstep, rfl⟩ := h.created hstage
  constructor
  case total_eq =>
    unfold begun
    rw [hplaced]
    exact h.total_eq
  case log_le => simp
  case done_not_mem => simp
  case count_le => exact fun _ => Nat.zero_le _
  case created => exact fun heq => by cases heq
  case active => exact fun _ => ⟨Step.noConfusion, rfl, hbudget, rfl⟩
  case left => exact fun _ s hs => absurd hs (Nat.not_lt_zero _)

theorem OnSchedule.prerun (h : OnSchedule log r) : OnSchedule log r.prerun := by
  by_cases hstage : r.stage = .created
  · rcases prerun_cases hstage with ⟨-, heq⟩ | ⟨-, heq⟩ | ⟨-, ⟨heq, hbudget⟩ | ⟨heq, hbudget⟩⟩
    · rw [heq]
      exact h.stopped rfl rfl (Step.rank_le _) (Or.inl rfl)
    · obtain ⟨d, random, connected, hplaced⟩ := r.placed_eq
      rw [heq, hplaced]
      exact h.stopped rfl rfl (Step.rank_le _) (Or.inl rfl)
    · rw [heq]
      exact onSchedule_begun h hstage hbudget
    · have hleaving := leaving_begun h hstage hbudget
      rw [heq]
      exact hleaving.onSchedule (advanced_advanceStep hleaving.stage_eq hleaving.step_ne)
  · rw [prerun_of_ne hstage]
    exact h

theorem count_append_self (log : List Step) (s : Step) :
    (log ++ [s]).count s = log.count s + 1 := by
  rw [List.count_append, List.count_singleton_self]

theorem count_append_ne (log : List Step) {s t : Step} (h : t ≠ s) :
    (log ++ [s]).count t = log.count t := by
  rw [List.count_append, List.count_singleton, if_neg (by simpa using Ne.symm h), Nat.add_zero]

theorem OnSchedule.log_le_append (h : OnSchedule log r) :
    ∀ s ∈ log ++ [r.step], s.rank ≤ r.step.rank := by
  intro s hs
  rcases List.mem_append.mp hs with hs | hs
  · exact h.log_le s hs
  · exact Nat.le_of_eq (congrArg Step.rank (List.mem_singleton.mp hs))

theorem OnSchedule.done_not_mem_append (h : OnSchedule log r) (hstep : r.step ≠ .done) :
    Step.done ∉ log ++ [r.step] := by
  rw [List.mem_append, List.mem_singleton, not_or]
  exact ⟨h.done_not_mem, Ne.symm hstep⟩

/-- An iteration after which its step ends has run the step as long as it may. -/
theorem OnSchedule.leaving (h : OnSchedule log r) (hstage : r.stage = .simulating)
    (hends : r.StepEnds) (x : K) :
    Leaving (log ++ [r.step]) { r.worked with oldDisplacement := x } := by
  obtain ⟨d, cooling, last, memory, hworked⟩ := r.worked_eq
  obtain ⟨hstep, hbudget, hlt, hcount⟩ := h.active hstage
  rw [hworked]
  constructor
  case total_eq =>
    rw [List.length_append]
    exact congrArg (· + 1) h.total_eq
  case log_le => exact h.log_le_append
  case done_not_mem => exact h.done_not_mem_append hstep
  case stage_eq => exact hstage
  case step_ne => exact hstep
  case ran =>
    intro s hs
    -- the current step has its last iteration now; the ones before it are over
    refine Ran.congr (r := r) rfl ?_
    by_cases heq : s = r.step
    · subst heq
      rw [count_append_self, hcount]
      rcases hends with hend | ⟨hcycle, hquarter⟩
      · exact Or.inl (by omega)
      -- a step may settle at the end of a cycle that is the last of its budget, too
      · by_cases hall : r.stepIteration + 1 = r.budgetFor r.step
        · exact Or.inl hall
        · refine Or.inr ⟨Nat.succ_pos _, by omega, Nat.dvd_of_mod_eq_zero hcycle, fun hs => ?_⟩
          have hfour := hquarter hs
          omega
    · have hrank : s.rank < r.step.rank :=
        Nat.lt_of_le_of_ne hs fun hsame => heq (Step.rank_inj.mp hsame)
      rw [count_append_ne log heq]
      exact h.left hstage s hrank

/-- An iteration counts for its step, and all steps before the one after it have run. -/
theorem OnSchedule.iterate (h : OnSchedule log r) (hstage : r.stage = .simulating) :
    OnSchedule (log ++ [r.step]) r.iterate ∧
      ∀ s : Step, s.rank < r.iterate.step.rank →
        r.iterate.Ran s ((log ++ [r.step]).count s) := by
  rcases r.iterate_cases with ⟨x, heq, hlt⟩ | ⟨x, heq, hends⟩
  · obtain ⟨d, cooling, last, memory, hworked⟩ := r.worked_eq
    obtain ⟨hstep, hbudget, -, hcount⟩ := h.active hstage
    have hleft : ∀ s : Step, s.rank < r.step.rank → r.Ran s ((log ++ [r.step]).count s) := by
      intro s hs
      have hne : s ≠ r.step := fun heq => by
        rw [heq] at hs
        exact Nat.lt_irrefl _ hs
      rw [count_append_ne log hne]
      exact h.left hstage s hs
    rw [heq, hworked]
    refine ⟨?_, hleft⟩
    constructor
    case total_eq =>
      rw [List.length_append]
      exact congrArg (· + 1) h.total_eq
    case log_le => exact h.log_le_append
    case done_not_mem => exact h.done_not_mem_append hstep
    case count_le =>
      intro s
      change _ ≤ r.budgetFor s
      by_cases hs : s = r.step
      · subst hs
        rw [count_append_self]
        omega
      · rw [count_append_ne log hs]
        exact h.count_le s
    case created => exact fun hcreated => by cases hstage.symm.trans hcreated
    case active =>
      refine fun _ => ⟨hstep, hbudget, hlt, ?_⟩
      rw [count_append_self]
      exact congrArg (· + 1) hcount
    case left => exact fun _ => hleft
  · have hleaving := h.leaving hstage hends x
    have hadvanced := advanced_advanceStep hleaving.stage_eq hleaving.step_ne
    rw [heq]
    exact ⟨hleaving.onSchedule hadvanced, hleaving.ran_passed hadvanced⟩

/-! ## Paths -/

theorem rank_prerun (h : OnSchedule log r) :
    r.stage.rank ≤ r.prerun.stage.rank ∧ r.step.rank ≤ r.prerun.step.rank := by
  by_cases hstage : r.stage = .created
  · rw [hstage, (h.created hstage).1]
    exact ⟨Nat.zero_le _, Nat.zero_le _⟩
  · rw [prerun_of_ne hstage]
    exact ⟨Nat.le_refl _, Nat.le_refl _⟩

theorem rank_iterate (h : OnSchedule log r) (hstage : r.stage = .simulating) :
    r.stage.rank ≤ r.iterate.stage.rank ∧ r.step.rank ≤ r.iterate.step.rank := by
  rcases r.iterate_cases with ⟨x, heq, -⟩ | ⟨x, heq, hends⟩
  · obtain ⟨d, cooling, last, memory, hworked⟩ := r.worked_eq
    rw [heq, hworked]
    exact ⟨Nat.le_refl _, Nat.le_refl _⟩
  · have hleaving := h.leaving hstage hends x
    have hadvanced := advanced_advanceStep hleaving.stage_eq hleaving.step_ne
    have hrank := hadvanced.rank_lt
    obtain ⟨d, cooling, last, memory, hworked⟩ := r.worked_eq
    rw [heq, hstage]
    rw [hworked] at hrank hadvanced ⊢
    refine ⟨?_, Nat.le_of_lt hrank⟩
    rcases hadvanced.next with ⟨hnext, -⟩ | ⟨hnext, -⟩
    · rw [hnext]
      decide
    · exact Nat.le_of_eq (congrArg Stage.rank hnext.symm)

theorem rank_postrun (r : Run K) :
    r.stage.rank ≤ r.postrun.stage.rank ∧ r.step.rank ≤ r.postrun.step.rank := by
  rcases r.postrun_cases with heq | ⟨-, -, d, heq⟩
  · rw [heq]
    exact ⟨Nat.le_refl _, Nat.le_refl _⟩
  · rw [heq]
    exact ⟨Stage.rank_le _, Nat.le_refl _⟩

/-- On a path a run stays on schedule, and its stage and its step go forward. -/
theorem OnSchedule.path (h : OnSchedule log r) {qs : List (Run K)} (hpath : Path r qs r') :
    OnSchedule (log ++ qs.map (·.step)) r' ∧ r.stage.rank ≤ r'.stage.rank ∧
      r.step.rank ≤ r'.step.rank := by
  induction hpath generalizing log with
  | refl r =>
      rw [List.map_nil, List.append_nil]
      exact ⟨h, Nat.le_refl _, Nat.le_refl _⟩
  | prerun _ ih =>
      obtain ⟨hlast, hstage, hstep⟩ := ih h.prerun
      have hfirst := rank_prerun h
      exact ⟨hlast, Nat.le_trans hfirst.1 hstage, Nat.le_trans hfirst.2 hstep⟩
  | iterate hsim _ ih =>
      obtain ⟨hlast, hstage, hstep⟩ := ih (h.iterate hsim).1
      have hfirst := rank_iterate h hsim
      rw [List.append_assoc] at hlast
      exact ⟨hlast, Nat.le_trans hfirst.1 hstage, Nat.le_trans hfirst.2 hstep⟩
  | stop hsim _ ih =>
      obtain ⟨hlast, hstage, hstep⟩ := ih h.stop
      refine ⟨hlast, Nat.le_trans ?_ hstage, Nat.le_trans (Step.rank_le _) hstep⟩
      rw [hsim]
      exact Nat.le_succ 1
  | @postrun r _ _ _ ih =>
      obtain ⟨hlast, hstage, hstep⟩ := ih h.postrun
      have hfirst := rank_postrun r
      exact ⟨hlast, Nat.le_trans hfirst.1 hstage, Nat.le_trans hfirst.2 hstep⟩

/-- Iterations on a path are of the step at its start or of later ones. -/
theorem OnSchedule.rank_le_start (h : OnSchedule log r) {qs : List (Run K)} (hpath : Path r qs r') :
    ∀ q ∈ qs, r.step.rank ≤ q.step.rank := by
  induction hpath generalizing log with
  | refl => simp
  | prerun _ ih => exact fun q hq => Nat.le_trans (rank_prerun h).2 (ih h.prerun q hq)
  | iterate hsim _ ih =>
      intro q hq
      rcases List.mem_cons.mp hq with rfl | hq
      · exact Nat.le_refl _
      · exact Nat.le_trans (rank_iterate h hsim).2 (ih (h.iterate hsim).1 q hq)
  | stop _ _ ih => exact fun q hq => Nat.le_trans (Step.rank_le _) (ih h.stop q hq)
  | postrun _ ih => exact fun q hq => Nat.le_trans (rank_postrun _).2 (ih h.postrun q hq)

theorem options_prerun (r : Run K) : r.prerun.options = r.options := by
  by_cases hstage : r.stage = .created
  · obtain ⟨d, random, connected, hplaced⟩ := r.placed_eq
    have hbegun : r.begun.options = r.options := by
      unfold begun
      rw [hplaced]
      rfl
    rcases prerun_cases hstage with ⟨-, heq⟩ | ⟨-, heq⟩ | ⟨-, ⟨heq, -⟩ | ⟨heq, -⟩⟩
    · rw [heq]
      rfl
    · rw [heq, hplaced]
      rfl
    · rw [heq, hbegun]
    · rw [heq]
      exact (advanced_advanceStep rfl Step.noConfusion).course.options_eq.trans hbegun
  · rw [prerun_of_ne hstage]

theorem options_iterate (h : OnSchedule log r) (hstage : r.stage = .simulating) :
    r.iterate.options = r.options := by
  have hworked := r.counted_worked.options_eq
  rcases r.iterate_cases with ⟨x, heq, -⟩ | ⟨x, heq, hends⟩
  · rw [heq]
    exact hworked
  · have hleaving := h.leaving hstage hends x
    have hoptions := (advanced_advanceStep hleaving.stage_eq hleaving.step_ne).course.options_eq
    rw [heq, hoptions]
    exact hworked

theorem options_postrun (r : Run K) : r.postrun.options = r.options := by
  rcases r.postrun_cases with heq | ⟨-, -, d, heq⟩ <;> rw [heq]

/-- The steps that an iteration of a path leaves have run, and do not run again on the path. -/
theorem OnSchedule.ran_of_left (h : OnSchedule log r) {qs : List (Run K)} (hpath : Path r qs r') :
    ∀ q ∈ qs, ∀ s : Step, q.step.rank ≤ s.rank → s.rank < q.iterate.step.rank →
      r.Ran s ((log ++ qs.map (·.step)).count s) := by
  induction hpath generalizing log with
  | refl => simp
  | prerun _ ih =>
      intro q hq s hle hlt
      exact (ih h.prerun q hq s hle hlt).congr (options_prerun _).symm
  | @iterate r _ qs hsim rest ih =>
      have hnext := h.iterate hsim
      have hoptions := (options_iterate h hsim).symm
      intro q hq s hle hlt
      rw [List.map_cons, List.append_cons]
      rcases List.mem_cons.mp hq with rfl | hq
      · -- what comes later on the path is of later steps
        have hlater : (qs.map (·.step)).count s = 0 := by
          refine List.count_eq_zero.mpr fun hmem => ?_
          obtain ⟨p, hp, rfl⟩ := List.mem_map.mp hmem
          exact absurd (hnext.1.rank_le_start rest p hp) (Nat.not_le.mpr hlt)
        rw [List.count_append, hlater, Nat.add_zero]
        exact (hnext.2 s hlt).congr hoptions
      · exact (ih hnext.1 q hq s hle hlt).congr hoptions
  | stop _ _ ih =>
      intro q hq s hle hlt
      exact ih h.stop q hq s hle hlt
  | postrun _ ih =>
      intro q hq s hle hlt
      exact (ih h.postrun q hq s hle hlt).congr (options_postrun _).symm

theorem options_path (h : OnSchedule log r) {qs : List (Run K)} (hpath : Path r qs r') :
    r'.options = r.options := by
  induction hpath generalizing log with
  | refl => rfl
  | prerun _ ih => exact (ih h.prerun).trans (options_prerun _)
  | iterate hsim _ ih => exact (ih (h.iterate hsim).1).trans (options_iterate h hsim)
  | stop _ _ ih => exact ih h.stop
  | postrun _ ih => exact (ih h.postrun).trans (options_postrun _)

theorem length_eq_sum_count {log : List Step} (hdone : Step.done ∉ log) :
    log.length = log.count .settle + (log.count .reverse + (log.count .resettle +
      (log.count .exchange + log.count .polish))) := by
  induction log with
  | nil => rfl
  | cons s log ih =>
      obtain ⟨hs, hlog⟩ := not_or.mp (List.mem_cons.not.mp hdone)
      have hrest := ih hlog
      cases s with
      | done => exact absurd rfl hs
      | _ =>
          simp
          omega

/-- The iterations gone by fit into all budgets together. -/
theorem OnSchedule.total_le (h : OnSchedule log r) : r.totalIterations ≤ r.totalBudget := by
  have hlength := length_eq_sum_count h.done_not_mem
  have hsettle := h.count_le .settle
  have hreverse := h.count_le .reverse
  have hresettle := h.count_le .resettle
  have hexchange := h.count_le .exchange
  have hpolish := h.count_le .polish
  rw [h.total_eq, totalBudget]
  simp only [Step.active, List.foldr_cons, List.foldr_nil]
  omega

end Run

end RingLayout
