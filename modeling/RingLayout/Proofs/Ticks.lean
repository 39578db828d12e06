import RingLayout.Proofs.Guise
import RingLayout.Proofs.Lifecycle

/-! # Ticks

Ticks cut the iterations of a simulation into pieces of equal length. Without a limit of time,
where they cut makes no difference to the layout.
-/

namespace RingLayout

variable {K : Type}

namespace Run

def withDisplay (r : Run K) (s : Display) : Run K :=
  { r with options := r.options.withDisplay s }

/-- Another display is another guise. -/
theorem withDisplay_eq_inGuise (s : Display) :
    (fun r : Run K => r.withDisplay s) = inGuise ⟨id, id, fun _ => s⟩ := by
  funext r
  exact congrArg (fun d => { r.withDisplay s with drawing := d }) r.drawing.rename_id.symm

variable [Scalar K] (r : Run K) (s : Display)

theorem prerun_withDisplay : (r.withDisplay s).prerun = r.prerun.withDisplay s := by
  have hguise := prerun_inGuise ⟨id, id, fun _ => s⟩ r
  rwa [← withDisplay_eq_inGuise] at hguise

theorem postrun_withDisplay : (r.withDisplay s).postrun = r.postrun.withDisplay s := by
  have hguise := postrun_inGuise ⟨id, id, fun _ => s⟩ r
  rwa [← withDisplay_eq_inGuise] at hguise

/-! ## Iterations without a limit of time -/

/-- The run an iteration later, if it still simulates. -/
def onward (r : Run K) : Run K := if r.stage = .simulating then r.iterate else r

theorem onward_inGuise (w : Guise K) : (r.inGuise w).onward = r.onward.inGuise w := by
  rw [onward, onward, inGuise_ite, iterate_inGuise]
  rfl

theorem onward_iterate_inGuise (w : Guise K) (n : Nat) :
    onward^[n] (r.inGuise w) = (onward^[n] r).inGuise w :=
  (Function.Commute.iterate_left (f := onward) (g := inGuise w)
    (fun q => q.onward_inGuise w) n) r

theorem onward_iterate_withDisplay (n : Nat) :
    onward^[n] (r.withDisplay s) = (onward^[n] r).withDisplay s := by
  have hguise := onward_iterate_inGuise r ⟨id, id, fun _ => s⟩ n
  rwa [← withDisplay_eq_inGuise] at hguise

variable {r} {log : List Step} {total : Nat}

theorem onward_iterate_of_ne (h : r.stage ≠ .simulating) (n : Nat) : onward^[n] r = r := by
  have hfixed : onward r = r := if_neg h
  exact Function.iterate_fixed hfixed n

/-- A run that another one has come to after a number of iterations. -/
structure Reaches (log : List Step) (r : Run K) (n : Nat) (r' : Run K) : Prop where
  schedule : ∃ log', OnSchedule log' r' ∧ log'.length = log.length + n
  options_eq : r'.options = r.options
  stage_le : r.stage.rank ≤ r'.stage.rank

theorem Reaches.total_eq {r' : Run K} {n : Nat} (h : Reaches log r n r') :
    r'.totalIterations = log.length + n := by
  obtain ⟨log', hlog, hlength⟩ := h.schedule
  rw [hlog.total_eq, hlength]

/-- A simulation is over after a number of iterations, and not before. -/
structure Lasts (r : Run K) (total : Nat) : Prop where
  ends : (onward^[total] r).stage ≠ .simulating
  simulating : ∀ n < total, (onward^[n] r).stage = .simulating

theorem totalBudget_congr {r' : Run K} (h : r'.options = r.options) :
    r'.totalBudget = r.totalBudget := by
  simp only [totalBudget, budgetFor_congr h]

theorem Reaches.total_le {r' : Run K} {n : Nat} (h : Reaches log r n r') :
    log.length + n ≤ r.totalBudget := by
  obtain ⟨log', hlog, hlength⟩ := h.schedule
  rw [← hlength, ← hlog.total_eq, ← totalBudget_congr h.options_eq]
  exact hlog.total_le

theorem OnSchedule.onward_iterate (h : OnSchedule log r) {n : Nat}
    (hsim : ∀ i < n, (onward^[i] r).stage = .simulating) : Reaches log r n (onward^[n] r) := by
  induction n with
  | zero => exact ⟨⟨log, h, rfl⟩, rfl, Nat.le_refl _⟩
  | succ n ih =>
      obtain ⟨⟨log', hlog, hlength⟩, hoptions, hrank⟩ :=
        ih fun i hi => hsim i (Nat.lt_succ_of_lt hi)
      have hstage := hsim n (Nat.lt_succ_self n)
      have hnext : (onward^[n] r).onward = (onward^[n] r).iterate := if_pos hstage
      rw [Function.iterate_succ_apply', hnext]
      refine ⟨⟨_, (hlog.iterate hstage).1, ?_⟩, (options_iterate hlog hstage).trans hoptions,
        Nat.le_trans hrank (rank_iterate hlog hstage).1⟩
      rw [List.length_append, hlength]
      rfl

/-- Every simulation is over at some time, since iterations are counted and bounded. -/
theorem OnSchedule.exists_lasts (h : OnSchedule log r) : ∃ total, Lasts r total := by
  classical
  have hover : ∃ n, (onward^[n] r).stage ≠ .simulating := by
    by_contra hall
    rw [not_exists] at hall
    have hreach := h.onward_iterate (n := r.totalBudget + 1) fun i _ => not_not.mp (hall i)
    have htotal := hreach.total_le
    omega
  exact ⟨Nat.find hover, Nat.find_spec hover, fun n hn => not_not.mp (Nat.find_min hover hn)⟩

namespace Lasts

theorem inGuise (h : Lasts r total) (w : Guise K) : Lasts (r.inGuise w) total where
  ends := by
    rw [onward_iterate_inGuise]
    exact h.ends
  simulating n hn := by
    rw [onward_iterate_inGuise]
    exact h.simulating n hn

theorem withDisplay (h : Lasts r total) (s : Display) : Lasts (r.withDisplay s) total := by
  have hguise := h.inGuise ⟨id, id, fun _ => s⟩
  rwa [← withDisplay_eq_inGuise] at hguise

theorem onward_eq (h : Lasts r total) {n : Nat} (hn : total ≤ n) :
    onward^[n] r = onward^[total] r := by
  obtain ⟨k, rfl⟩ := Nat.exists_eq_add_of_le' hn
  rw [Function.iterate_add_apply, onward_iterate_of_ne h.ends]

theorem stage_eq_iff (h : Lasts r total) {n : Nat} :
    (onward^[n] r).stage = .simulating ↔ n < total := by
  refine ⟨fun hsim => ?_, h.simulating n⟩
  by_contra hn
  rw [h.onward_eq (Nat.le_of_not_lt hn)] at hsim
  exact h.ends hsim

/-- What has become of a run when it has simulated for some time. -/
theorem reaches (h : Lasts r total) (hlog : OnSchedule log r) (n : Nat) :
    Reaches log r (min n total) (onward^[n] r) := by
  have hmin := hlog.onward_iterate (n := min n total) fun i hi =>
    h.simulating i (Nat.lt_of_lt_of_le hi (Nat.min_le_right ..))
  have heq : onward^[n] r = onward^[min n total] r := by
    rcases Nat.le_total n total with hle | hle
    · rw [Nat.min_eq_left hle]
    · rw [Nat.min_eq_right hle, h.onward_eq hle]
  rwa [heq]

end Lasts

/-- Without a limit of time the clock does not matter. -/
theorem OnSchedule.iterations_eq (h : OnSchedule log r) (htime : r.options.timeBudget = none)
    (clock : Clock) (n : Nat) (hstage : r.stage = .simulating) :
    iterations clock n r = onward^[n] r := by
  induction n generalizing r log with
  | zero => rfl
  | succ n ih =>
      have hnext := (h.iterate hstage).1
      have htime' : r.iterate.options.timeBudget = none := by rwa [options_iterate h hstage]
      have hin : r.outOfTime clock = false := by rw [outOfTime, htime]
      have honward : r.onward = r.iterate := if_pos hstage
      rw [iterations, hin, if_neg Bool.false_ne_true, Function.iterate_succ_apply, honward]
      dsimp only
      split
      next hsim => exact ih hnext htime' hsim
      next hover => rw [onward_iterate_of_ne hover]

theorem OnSchedule.tick_eq (h : OnSchedule log r) (htime : r.options.timeBudget = none)
    (clock : Clock) : (r.tick clock).2 = onward^[max r.options.refresh 1] r.prerun := by
  have htick : (r.tick clock).2 = if r.prerun.stage = .simulating then
      iterations clock (max r.prerun.options.refresh 1) r.prerun else r.prerun := rfl
  have hoptions := options_prerun r
  rw [htick, hoptions]
  split
  next hstage =>
    rw [← hoptions] at htime
    exact h.prerun.iterations_eq htime clock _ hstage
  next hstage => rw [onward_iterate_of_ne hstage]

/-! ## Ticks -/

/-- The run after its preparation and a number of ticks. -/
def ticked (r : Run K) (clock : Clock) (n : Nat) : Run K :=
  r.afterAll (.prerun :: List.replicate n (.tick clock))

/-- The ticks that a number of iterations takes; there is one at least. -/
def ticksFor (iterations refresh : Nat) : Nat :=
  max 1 ((iterations + max refresh 1 - 1) / max refresh 1)

theorem succ_lt_ticksFor_iff {refresh i : Nat} :
    i + 1 < ticksFor total refresh ↔ (i + 1) * max refresh 1 < total := by
  have hpos : 0 < max refresh 1 := by omega
  have hnot : ¬i + 1 < 1 := by omega
  rw [ticksFor, lt_max_iff, or_iff_right hnot, ← Nat.succ_le_iff, Nat.le_div_iff_mul_le hpos,
    Nat.succ_mul]
  omega

theorem ticksFor_le (total refresh : Nat) : ticksFor total refresh ≤ total + 1 := by
  by_contra hlt
  have hmul := succ_lt_ticksFor_iff.mp (Nat.lt_of_not_le hlt)
  have hle : (total + 1) * 1 ≤ (total + 1) * max refresh 1 :=
    Nat.mul_le_mul_left _ (Nat.le_max_right ..)
  omega

theorem le_ticksFor_mul (total refresh : Nat) :
    total ≤ ticksFor total refresh * max refresh 1 := by
  obtain ⟨n, hn⟩ : ∃ n, ticksFor total refresh = n + 1 :=
    Nat.exists_eq_succ_of_ne_zero (by unfold ticksFor; omega)
  have hlast : ¬n + 1 < ticksFor total refresh := by omega
  rw [succ_lt_ticksFor_iff] at hlast
  rw [hn]
  exact Nat.le_of_not_lt hlast

theorem ticked_succ (r : Run K) (clock : Clock) (n : Nat) :
    r.ticked clock (n + 1) = ((r.ticked clock n).tick clock).2 := by
  rw [ticked, ticked, afterAll, afterAll, List.replicate_succ', ← List.cons_append,
    List.foldl_append]
  rfl

section Course

variable (hlasts : Lasts r.prerun total) (h : OnSchedule [] r)
  (htime : r.options.timeBudget = none)
include hlasts h

theorem Lasts.ticked_reaches (n : Nat) :
    Reaches [] r.prerun (min n total) (onward^[n] r.prerun) ∧
      (onward^[n] r.prerun).stage ≠ .created := by
  have hreach := hlasts.reaches h.prerun n
  refine ⟨hreach, fun hcreated => ?_⟩
  have hrank := Nat.le_trans (Stage.rank_pos (prerun_stage_ne r)) hreach.stage_le
  rw [hcreated] at hrank
  exact absurd hrank (by decide)

include htime

/-- Ticks take the iterations of a tick one after the other. -/
theorem Lasts.ticked_eq (clock : Clock) (n : Nat) :
    r.ticked clock n = onward^[n * max r.options.refresh 1] r.prerun := by
  induction n with
  | zero =>
      rw [Nat.zero_mul]
      rfl
  | succ n ih =>
      obtain ⟨⟨⟨log', hlog, -⟩, hoptions, -⟩, hcreated⟩ :=
        hlasts.ticked_reaches h (n * max r.options.refresh 1)
      rw [options_prerun] at hoptions
      rw [ticked_succ, ih, hlog.tick_eq (by rwa [hoptions]), prerun_of_ne hcreated, hoptions,
        ← Function.iterate_add_apply, Nat.succ_mul, Nat.add_comm]

theorem Lasts.ticked_total (clock : Clock) (n : Nat) :
    (r.ticked clock n).totalIterations = min (n * max r.options.refresh 1) total := by
  rw [hlasts.ticked_eq h htime, (hlasts.ticked_reaches h _).1.total_eq, List.length_nil,
    Nat.zero_add]

theorem Lasts.tick_ticked (clock : Clock) {i : Nat}
    (hi : i < ticksFor total r.options.refresh) :
    (r.ticked clock i).tick clock =
      (decide (i + 1 = ticksFor total r.options.refresh), r.ticked clock (i + 1)) := by
  refine Prod.ext ?_ (ticked_succ r clock i).symm
  have hdone : ((r.ticked clock i).tick clock).1 =
      decide (((r.ticked clock i).tick clock).2.stage ≠ .simulating) := rfl
  rw [hdone, ← ticked_succ, hlasts.ticked_eq h htime, decide_eq_decide, Ne, hlasts.stage_eq_iff,
    ← succ_lt_ticksFor_iff]
  omega

/-- The iterations of a tick are those by which its count goes up. -/
theorem Lasts.length_callStarts (clock : Clock) (n : Nat) :
    min (n * max r.options.refresh 1) total +
        ((r.ticked clock n).callStarts (.tick clock)).length =
      min ((n + 1) * max r.options.refresh 1) total := by
  obtain ⟨⟨⟨log, hlog, hlength⟩, -, -⟩, -⟩ :=
    hlasts.ticked_reaches h (n * max r.options.refresh 1)
  rw [← hlasts.ticked_eq h htime clock] at hlog
  have hnext := (hlog.path (path_after _ (.tick clock))).1.total_eq
  rw [after, ← ticked_succ, hlasts.ticked_total h htime, List.length_append, List.length_map,
    hlength, List.length_nil, Nat.zero_add] at hnext
  exact hnext.symm

/-- The ticks have all iterations between them. -/
theorem Lasts.length_starts (clock : Clock) :
    (r.starts (.prerun :: List.replicate (ticksFor total r.options.refresh)
      (.tick clock))).length = total := by
  have hpath := r.path_afterAll
    (.prerun :: List.replicate (ticksFor total r.options.refresh) (.tick clock))
  have htotal := (h.path hpath).1.total_eq
  rw [List.nil_append, List.length_map] at htotal
  rw [← htotal]
  change (r.ticked clock _).totalIterations = total
  rw [hlasts.ticked_total h htime, Nat.min_eq_right (le_ticksFor_mul total r.options.refresh)]

end Course

/-- Ticks that end with a given one. -/
theorem ticksUntilDone_eq {σ : Type} {clock : Clock} {q : Nat → Run K} {last : Nat}
    (htick : ∀ i < last, (q i).tick clock = (decide (i + 1 = last), q (i + 1)))
    (observe : σ → Run K → σ) (fuel : Nat) {i : Nat} (hi : i < last) (hfuel : last ≤ i + fuel)
    (seen : σ) :
    ticksUntilDone clock observe fuel seen (q i) =
      (((List.range' (i + 1) (last - i)).map q).foldl observe seen, q last) := by
  induction fuel generalizing i seen with
  | zero => omega
  | succ fuel ih =>
      obtain ⟨n, hn⟩ : ∃ n, last - i = n + 1 := Nat.exists_eq_succ_of_ne_zero (by omega)
      rw [ticksUntilDone, htick i hi, hn, List.range'_succ, List.map_cons, List.foldl_cons]
      dsimp only
      by_cases hlast : i + 1 = last
      · have hzero : n = 0 := by omega
        rw [if_pos (decide_eq_true hlast), hzero, hlast]
        rfl
      · have hrest : last - (i + 1) = n := by omega
        rw [if_neg (by simpa using hlast), ih (by omega) (by omega), hrest]

/-- Without a limit of time a run goes through its ticks to the end. -/
theorem Lasts.complete_eq (hlasts : Lasts r.prerun total) (h : OnSchedule [] r)
    (htime : r.options.timeBudget = none) {σ : Type} (clock : Clock) (observe : σ → Run K → σ)
    (seen : σ) : r.complete clock observe seen =
      (((List.range' 1 (ticksFor total r.options.refresh)).map (r.ticked clock)).foldl observe seen,
        (onward^[total] r.prerun).postrun) := by
  have hbudget := (hlasts.reaches h.prerun total).total_le
  have hticks := ticksFor_le total r.options.refresh
  have hfirst : 0 < ticksFor total r.options.refresh := by
    unfold ticksFor
    omega
  rw [List.length_nil, Nat.min_self, totalBudget_congr (options_prerun r)] at hbudget
  have hrun := ticksUntilDone_eq (fun i => hlasts.tick_ticked h htime clock) observe
    (r.totalBudget + 2) hfirst (by omega) seen
  rw [hlasts.ticked_eq h htime clock (ticksFor _ _),
    hlasts.onward_eq (le_ticksFor_mul total r.options.refresh)] at hrun
  change ticksUntilDone clock observe _ seen r.prerun = _ at hrun
  rw [complete, hrun]
  rfl

end Run

namespace Layout

variable [Scalar K]

/-- What a caller sees of a layout that takes a number of iterations. -/
structure Shows (g : Graph K) (o : Options K) (clock : Clock) (total : Nat) (result : Layout K)
    (start : Run K) : Prop where
  create_eq : Run.create g o = .ok start
  /-- The observer is called once after every tick. -/
  withProgress_eq : ∀ (σ : Type) (observe : σ → Layout K → σ) (seen : σ),
    withProgress g o clock observe seen = .ok
      (((List.range' 1 (Run.ticksFor total o.refresh)).map fun n =>
        ofRun (start.ticked clock n)).foldl observe seen, result)
  compute_eq : compute g o clock = .ok result
  /-- The ticks take all iterations together. -/
  total_eq : (start.starts (.prerun :: List.replicate (Run.ticksFor total o.refresh)
    (.tick clock))).length = total
  /-- Every tick but the last takes as many iterations as it may. -/
  tick_full : ∀ n, n + 1 < Run.ticksFor total o.refresh →
    ((start.ticked clock n).callStarts (.tick clock)).length = max o.refresh 1

theorem shows_of_lasts {g : Graph K} {o : Options K} {d : Drawing K} {total : Nat}
    (hbuild : Drawing.build g o = .ok d) (htime : o.timeBudget = none)
    (hlasts : Run.Lasts (Run.ofDrawing d o).prerun total) (clock : Clock) :
    Shows g o clock total (ofRun (Run.onward^[total] (Run.ofDrawing d o).prerun).postrun)
      (Run.ofDrawing d o) := by
  have hcreate : Run.create g o = .ok (Run.ofDrawing d o) := by
    rw [Run.create, hbuild]
    rfl
  have hlog := Run.onSchedule_ofDrawing d o
  constructor
  case create_eq => exact hcreate
  case withProgress_eq =>
    intro σ observe seen
    have hrun := hlasts.complete_eq hlog htime clock (fun seen r => observe seen (ofRun r)) seen
    rw [withProgress, hcreate]
    change Except.ok _ = _
    dsimp only
    rw [hrun, List.foldl_map, List.foldl_map]
    rfl
  case compute_eq =>
    have hrun := hlasts.complete_eq hlog htime clock (fun _ _ => ()) ()
    rw [compute, hcreate]
    change Except.ok _ = _
    dsimp only
    rw [hrun]
  case total_eq => exact hlasts.length_starts hlog htime clock
  case tick_full =>
    intro n hn
    have hlength := hlasts.length_callStarts hlog htime clock n
    have hfull := Nat.le_of_lt (Run.succ_lt_ticksFor_iff.mp hn)
    have hoptions : (Run.ofDrawing d o).options = o := rfl
    rw [hoptions, Nat.succ_mul] at hlength
    rw [Nat.succ_mul] at hfull
    omega

/-- Without a limit of time a graph is refused or laid out whatever the display is, and always
after the same iterations. -/
theorem shows_withDisplay {o : Options K} (htime : o.timeBudget = none) (g : Graph K) :
    (∃ err, ∀ s clock σ (observe : σ → Layout K → σ) seen,
        withProgress g (o.withDisplay s) clock observe seen = .error err ∧
          compute g (o.withDisplay s) clock = .error err) ∨
      ∃ total result, ∀ s clock, ∃ start, Shows g (o.withDisplay s) clock total result start := by
  have hbuild : ∀ s, Drawing.build g (o.withDisplay s) = Drawing.build g o := fun _ => rfl
  cases hd : Drawing.build g o with
  | error err =>
      refine Or.inl ⟨err, fun s clock σ observe seen => ?_⟩
      rw [withProgress, compute, Run.create, hbuild, hd]
      exact ⟨rfl, rfl⟩
  | ok d =>
      obtain ⟨total, hlasts⟩ := (Run.onSchedule_ofDrawing d o).prerun.exists_lasts
      refine Or.inr ⟨total, ofRun (Run.onward^[total] (Run.ofDrawing d o).prerun).postrun, ?_⟩
      intro s clock
      have hstart : Run.ofDrawing d (o.withDisplay s) = (Run.ofDrawing d o).withDisplay s := rfl
      have hlasts' := hlasts.withDisplay s
      rw [← Run.prerun_withDisplay, ← hstart] at hlasts'
      have hshows := shows_of_lasts ((hbuild s).trans hd) htime hlasts' clock
      rw [hstart, Run.prerun_withDisplay, Run.onward_iterate_withDisplay,
        Run.postrun_withDisplay] at hshows
      exact ⟨_, hshows⟩

theorem shows_withDisplay_crossedPairs : Drawing.oneRing.timeBudget = none ∧
    ∃ total result, ∀ s clock, ∃ start,
      Shows Drawing.crossedPairs (Drawing.oneRing.withDisplay s) clock total result start :=
  ⟨rfl, (shows_withDisplay rfl Drawing.crossedPairs).resolve_left fun ⟨err, herr⟩ => by
    have hrefused := (herr ⟨1, false, 0⟩ (fun _ => 0) Unit (fun _ _ => ()) ()).2
    have hbuild : Drawing.build Drawing.crossedPairs (Drawing.oneRing.withDisplay ⟨1, false, 0⟩) =
      Drawing.build Drawing.crossedPairs Drawing.oneRing := rfl
    rw [compute, Run.create, hbuild, Drawing.build_crossedPairs] at hrefused
    cases hrefused⟩

end Layout

end RingLayout
