import RingLayout.Proofs.Schedule

/-! # Calls on a run

A caller prepares, ticks and finishes a run in any order, with a clock of its own for every tick.
The iterations that calls carry out are recorded by the states in which they begin. Every sequence
of calls is a path of preparations, iterations, stops for lack of time, and endings.
-/

namespace RingLayout

/-- What a caller can ask of a run. -/
inductive Call where
  | prerun
  | tick (clock : Clock)
  | postrun

namespace Run

variable {K : Type} [Scalar K]

/-- The run after a call. -/
def after (r : Run K) : Call → Run K
  | .prerun => r.prerun
  | .tick clock => (r.tick clock).2
  | .postrun => r.postrun

/-- The run after calls in turn. -/
def afterAll (r : Run K) (calls : List Call) : Run K := calls.foldl after r

/-- The states in which the iterations of a tick begin. -/
def iterationStarts (clock : Clock) : Nat → Run K → List (Run K)
  | 0, _ => []
  | n + 1, r =>
    if r.outOfTime clock then []
    else r :: if r.iterate.stage = .simulating then iterationStarts clock n r.iterate else []

/-- The states in which the iterations of a call begin. -/
def callStarts (r : Run K) : Call → List (Run K)
  | .tick clock =>
    if r.prerun.stage = .simulating then
      iterationStarts clock (max r.prerun.options.refresh 1) r.prerun
    else []
  | _ => []

/-- The states in which the iterations of calls in turn begin. -/
def starts (r : Run K) : List Call → List (Run K)
  | [] => []
  | c :: cs => r.callStarts c ++ (r.after c).starts cs

/-- Whether a call is a tick that says that the simulation goes on. -/
def goesOn (r : Run K) : Call → Bool
  | .tick clock => !(r.tick clock).1
  | _ => false

/-- The number of ticks among calls in turn that say that the simulation goes on. -/
def openTicks (r : Run K) : List Call → Nat
  | [] => 0
  | c :: cs => (if r.goesOn c then 1 else 0) + (r.after c).openTicks cs

/-- The second run comes of the first by the elementary changes of a run. The list has the states
in which iterations begin on the way. -/
inductive Path : Run K → List (Run K) → Run K → Prop where
  | refl (r : Run K) : Path r [] r
  | prerun {r r' : Run K} {qs : List (Run K)} (rest : Path r.prerun qs r') : Path r qs r'
  | iterate {r r' : Run K} {qs : List (Run K)} (hstage : r.stage = .simulating)
      (rest : Path r.iterate qs r') : Path r (r :: qs) r'
  | stop {r r' : Run K} {qs : List (Run K)} (hstage : r.stage = .simulating)
      (rest : Path r.stop qs r') : Path r qs r'
  | postrun {r r' : Run K} {qs : List (Run K)} (rest : Path r.postrun qs r') : Path r qs r'

namespace Path

theorem trans {r r' r'' : Run K} {qs qs' : List (Run K)} (first : Path r qs r')
    (second : Path r' qs' r'') : Path r (qs ++ qs') r'' := by
  induction first with
  | refl => exact second
  | prerun _ ih => exact .prerun (ih second)
  | iterate hstage _ ih => exact .iterate hstage (ih second)
  | stop hstage _ ih => exact .stop hstage (ih second)
  | postrun _ ih => exact .postrun (ih second)

end Path

theorem afterAll_append (r : Run K) (calls later : List Call) :
    r.afterAll (calls ++ later) = (r.afterAll calls).afterAll later :=
  List.foldl_append

theorem starts_append (r : Run K) (calls later : List Call) :
    r.starts (calls ++ later) = r.starts calls ++ (r.afterAll calls).starts later := by
  induction calls generalizing r with
  | nil => rfl
  | cons c cs ih =>
      rw [List.cons_append, starts, starts, ih, List.append_assoc]
      rfl

/-- A tick of one iteration, without a limit of time. -/
theorem after_tick {r : Run K} (hstage : r.stage = .simulating) (hrefresh : r.options.refresh = 1)
    (htime : r.options.timeBudget = none) (clock : Clock) :
    r.after (.tick clock) = r.iterate ∧ r.callStarts (.tick clock) = [r] := by
  have hprepared : r.prerun = r := prerun_of_ne (hstage ▸ Stage.noConfusion)
  have hin : r.outOfTime clock = false := by rw [outOfTime, htime]
  have hnone : ∀ w : Run K, (if w.stage = .simulating then iterationStarts clock 0 w else []) = [] :=
    fun w => ite_self []
  have hsame : ∀ w : Run K, (if w.stage = .simulating then iterations clock 0 w else w) = w :=
    fun w => ite_self w
  constructor
  · rw [after, tick, hprepared]
    dsimp only
    rw [if_pos hstage, hrefresh, Nat.max_self, iterations, hin, if_neg Bool.false_ne_true]
    exact hsame r.iterate
  · rw [callStarts, hprepared, if_pos hstage, hrefresh, Nat.max_self, iterationStarts, hin,
      if_neg Bool.false_ne_true, hnone]

theorem path_iterations (clock : Clock) (n : Nat) {r : Run K} (hstage : r.stage = .simulating) :
    Path r (iterationStarts clock n r) (iterations clock n r) := by
  induction n generalizing r with
  | zero => exact .refl r
  | succ n ih =>
      rw [iterations, iterationStarts]
      split
      · exact .stop hstage (.refl _)
      · dsimp only
        split
        next hnext => exact .iterate hstage (ih hnext)
        next => exact .iterate hstage (.refl _)

theorem path_after (r : Run K) (c : Call) : Path r (r.callStarts c) (r.after c) := by
  cases c with
  | prerun => exact .prerun (.refl _)
  | postrun => exact .postrun (.refl _)
  | tick clock =>
      refine .prerun ?_
      simp only [callStarts, after, tick]
      split
      next hstage => exact path_iterations clock _ hstage
      next => exact .refl _

/-- Calls in turn make a path. -/
theorem path_afterAll (r : Run K) (calls : List Call) :
    Path r (r.starts calls) (r.afterAll calls) := by
  induction calls generalizing r with
  | nil => exact .refl r
  | cons c cs ih => exact (r.path_after c).trans (ih _)

theorem ticksUntilDone_eq_afterAll {σ : Type} (clock : Clock) (observe : σ → Run K → σ)
    (fuel : Nat) (seen : σ) (r : Run K) : ∃ n,
      (ticksUntilDone clock observe fuel seen r).2 =
        r.afterAll (List.replicate n (.tick clock)) := by
  induction fuel generalizing seen r with
  | zero => exact ⟨0, rfl⟩
  | succ fuel ih =>
      rw [ticksUntilDone]
      dsimp only
      split
      · exact ⟨1, rfl⟩
      · obtain ⟨n, hn⟩ := ih (observe seen (r.tick clock).2) (r.tick clock).2
        exact ⟨n + 1, hn⟩

/-- A whole run is one of calls: it is prepared, ticks for a while, and is finished. -/
theorem complete_eq_afterAll {σ : Type} (clock : Clock) (observe : σ → Run K → σ) (seen : σ)
    (r : Run K) : ∃ n, (r.complete clock observe seen).2 =
      r.afterAll (.prerun :: List.replicate n (.tick clock) ++ [.postrun]) := by
  obtain ⟨n, hn⟩ := ticksUntilDone_eq_afterAll clock observe (r.totalBudget + 2) seen r.prerun
  refine ⟨n, ?_⟩
  rw [afterAll, List.cons_append, List.foldl_cons, List.foldl_append]
  exact congrArg Run.postrun hn

/-- A tick after which the simulation goes on has carried out an iteration. -/
theorem callStarts_ne_nil {r : Run K} {c : Call} (h : r.goesOn c = true) :
    r.callStarts c ≠ [] := by
  cases c with
  | prerun => cases h
  | postrun => cases h
  | tick clock =>
      simp only [goesOn, tick, Bool.not_eq_true', decide_eq_false_iff_not, not_not] at h
      by_cases hstage : r.prerun.stage = .simulating
      · rw [if_pos hstage] at h
        rw [callStarts, if_pos hstage]
        obtain ⟨n, hn⟩ : ∃ n, max r.prerun.options.refresh 1 = n + 1 :=
          Nat.exists_eq_succ_of_ne_zero (by omega)
        rw [hn, iterations] at h
        rw [hn, iterationStarts]
        split at h
        next => cases h
        next htime =>
          rw [if_neg htime]
          exact List.cons_ne_nil _ _
      · rw [if_neg hstage] at h
        exact absurd h hstage

theorem openTicks_le (r : Run K) (calls : List Call) :
    r.openTicks calls ≤ (r.starts calls).length := by
  induction calls generalizing r with
  | nil => exact Nat.le_refl 0
  | cons c cs ih =>
      rw [openTicks, starts, List.length_append]
      refine Nat.add_le_add ?_ (ih _)
      split
      next hopen => exact List.length_pos_iff.mpr (callStarts_ne_nil hopen)
      next => exact Nat.zero_le _

end Run

end RingLayout
