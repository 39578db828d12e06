import RingLayout.Proofs.Motions.Course

/-! # The record of a run

What a run keeps from its preparation on may speak of the iterations before, each given by the
state in which it began. The steps that a run has left are on record as well, by the states in
which they were left.
-/

namespace RingLayout.Run

variable {K : Type} [Scalar K] {members : Nat → List Nat} {o : Options K} {built : Drawing K}
  {r r' : Run K}

/-! ## Iterations on record -/

theorem prerun_prerun (r : Run K) : r.prerun.prerun = r.prerun := prerun_of_ne r.prerun_stage_ne

/-- Calls on a new run leave it as it is, or they are calls on the run after its preparation. -/
theorem afterAll_cases (hcreated : r.stage = .created) (calls : List Call) :
    r.afterAll calls = r ∧ r.starts calls = [] ∨
      ∃ calls', r.afterAll calls = r.prerun.afterAll calls' ∧
        r.starts calls = r.prerun.starts calls' := by
  induction calls with
  | nil => exact Or.inl ⟨rfl, rfl⟩
  | cons c cs ih =>
      cases c with
      | prerun => exact Or.inr ⟨cs, rfl, rfl⟩
      | tick clock =>
          refine Or.inr ⟨.tick clock :: cs, ?_, ?_⟩
          · simp only [afterAll, List.foldl_cons, after, tick, prerun_prerun]
          · simp only [starts, callStarts, after, tick, prerun_prerun]
      | postrun =>
          have hsame : r.after .postrun = r := by
            rw [after, postrun_eq, if_pos (Or.inl hcreated)]
          simp only [afterAll, List.foldl_cons, starts, callStarts, hsame, List.nil_append]
          exact ih

theorem Informed.step_ne_done (h : Informed o members r) (hstage : r.stage = .simulating) :
    r.step ≠ .done := by
  obtain ⟨log, hlog⟩ := h.schedule
  exact (hlog.active hstage).1

/-- Whatever follows the preparation of a run keeps a property of the iterations on record and
the state that they lead to. -/
structure Lasting (o : Options K) (members : Nat → List Nat) (built : Drawing K)
    (P : List (Run K) → Run K → Prop) : Prop where
  iterate : ∀ qs r, Informed o members r → Descends built r → r.stage = .simulating → P qs r →
    P (qs ++ [r]) r.iterate
  stop : ∀ qs r, Informed o members r → Descends built r → r.stage = .simulating → P qs r →
    P qs r.stop
  postrun : ∀ qs r, Informed o members r → Descends built r → r.stage ≠ .created → P qs r →
    P qs r.postrun

/-- A state with the iterations that led to it on record. -/
structure Attained (o : Options K) (members : Nat → List Nat) (built : Drawing K)
    (P : List (Run K) → Run K → Prop) (qs : List (Run K)) (r : Run K) : Prop where
  holds : P qs r
  informed : Informed o members r
  descends : Descends built r

variable {P : List (Run K) → Run K → Prop} {qs : List (Run K)}

namespace Attained

variable (hP : Lasting o members built P) (hbuilt : built.skeleton.Sound members)
  (h : Attained o members built P qs r)

include h in
theorem underway (hstage : r.stage ≠ .created) : Underway members r :=
  ⟨hstage, h.informed.schedule, h.informed.seated⟩

include hP h

include hbuilt in
theorem iterate (hstage : r.stage = .simulating) :
    Attained o members built P (qs ++ [r]) r.iterate where
  holds := hP.iterate qs r h.informed h.descends hstage h.holds
  informed := h.informed.iterate hstage
  descends := by
    refine h.descends.of_drifts (hstage ▸ Stage.noConfusion) (.of_steps ?_)
    exact drifts_iterate trivial (h.descends.moves.sound hbuilt)

theorem stop (hstage : r.stage = .simulating) : Attained o members built P qs r.stop where
  holds := hP.stop qs r h.informed h.descends hstage h.holds
  informed := h.informed.stop hstage
  descends := h.descends.of_drifts (hstage ▸ Stage.noConfusion) Relation.ReflTransGen.refl

include hbuilt in
theorem postrun (hstage : r.stage ≠ .created) : Attained o members built P qs r.postrun where
  holds := hP.postrun qs r h.informed h.descends hstage h.holds
  informed := h.informed.postrun
  descends := h.descends.postrun hbuilt

end Attained

/-- What lasts holds at the end of a path, and where the iterations on the way begin. -/
theorem Lasting.path (hP : Lasting o members built P) (hbuilt : built.skeleton.Sound members)
    {qs' : List (Run K)} (hpath : Path r qs' r') (hstage : r.stage ≠ .created)
    (h : Attained o members built P qs r) :
    Attained o members built P (qs ++ qs') r' ∧ ∀ first q later, qs' = first ++ q :: later →
      q.stage = .simulating ∧ Attained o members built P (qs ++ first) q := by
  induction hpath generalizing qs with
  | refl =>
      refine ⟨(List.append_nil qs).symm ▸ h, fun first q later heq => ?_⟩
      exact absurd heq (by simp)
  | @prerun r _ _ _ ih =>
      have hsame : r.prerun = r := prerun_of_ne hstage
      rw [hsame] at ih
      exact ih hstage h
  -- only iterations go on record, where they begin
  | @iterate r _ _ hsimulating _ ih =>
      obtain ⟨hend, hstarts⟩ := ih ((h.underway hstage).iterate hsimulating).stage_ne
        (h.iterate hP hbuilt hsimulating)
      rw [List.append_assoc] at hend
      refine ⟨hend, fun first q later heq => ?_⟩
      cases first with
      | nil =>
          obtain ⟨rfl, -⟩ := List.cons.inj heq
          exact ⟨hsimulating, (List.append_nil qs).symm ▸ h⟩
      | cons p first =>
          obtain ⟨rfl, hrest⟩ := List.cons.inj heq
          have hq := hstarts first q later hrest
          rwa [List.append_assoc] at hq
  | stop hsimulating _ ih => exact ih Stage.noConfusion (h.stop hP hsimulating)
  | postrun _ ih =>
      exact ih (h.underway hstage).postrun.stage_ne (h.postrun hP hbuilt hstage)

/-- What lasts and holds after the preparation of a new run holds in all its states, with the
iterations so far on record. -/
theorem Lasting.afterAll {g : Graph K}
    (hP : Lasting o (fun c => (built.ring c).order) built P)
    (hbuild : Drawing.build g o = .ok built) (hstart : P [] (ofDrawing built o).prerun)
    (calls : List Call) :
    ((ofDrawing built o).afterAll calls = ofDrawing built o ∨
      ((ofDrawing built o).afterAll calls).stage ≠ .created ∧
        Attained o (fun c => (built.ring c).order) built P ((ofDrawing built o).starts calls)
          ((ofDrawing built o).afterAll calls)) ∧
      ∀ first q later, (ofDrawing built o).starts calls = first ++ q :: later →
        q.stage = .simulating ∧ Attained o (fun c => (built.ring c).order) built P first q := by
  have hbuilt := Drawing.sound_build hbuild
  have hinformed := informed_ofDrawing hbuild
  rcases afterAll_cases (r := ofDrawing built o) rfl calls with
    ⟨hsame, hnil⟩ | ⟨calls', hafter, hstarts⟩
  · refine ⟨Or.inl hsame, fun first q later heq => ?_⟩
    rw [hnil] at heq
    exact absurd heq (by simp)
  · rw [hafter, hstarts]
    obtain ⟨hend, hbegin⟩ := hP.path hbuilt ((ofDrawing built o).prerun.path_afterAll calls')
      (prerun_stage_ne _)
      ⟨hstart, hinformed.prerun, (descends_ofDrawing built o).prerun hbuilt⟩
    exact ⟨Or.inr ⟨stage_ne_of_prerun hinformed calls', hend⟩, hbegin⟩

/-! ## Steps on record -/

/-- The states in which steps are left while a run goes on to the next step with a budget. -/
def leavings : Nat → Run K → List (Run K)
  | 0, _ => []
  | fuel + 1, r =>
    let next := r.leaveStep.enterStep r.leaveStep.step.next
    r :: if next.step = .done ∨ 0 < next.stepBudget then [] else leavings fuel next

/-- The states in which an iteration leaves steps. -/
def iterationLeavings (r : Run K) : List (Run K) :=
  let r := r.worked
  if r.stepBudget ≤ r.stepIteration then leavings 6 r
  else if r.stepIteration % Cooling.period = 0 then
    let (settled, r) := r.checkSettled
    if settled then leavings 6 r else []
  else []

/-- The states in which the preparation of a run leaves steps. -/
def prerunLeavings (r : Run K) : List (Run K) :=
  if r.stage = .created ∧ r.options.quality ≠ .draft ∧ r.begun.stepBudget = 0 then
    leavings 6 r.begun
  else []

/-- The states in which a run that begins in one state has left steps after some iterations. -/
def leftAfter (start : Run K) (qs : List (Run K)) : List (Run K) :=
  start.prerunLeavings ++ qs.flatMap iterationLeavings

/-- The states in which steps are left during calls in turn. -/
def leftSteps (r : Run K) (calls : List Call) : List (Run K) :=
  if (r.afterAll calls).stage = .created then [] else r.leftAfter (r.starts calls)

theorem leftAfter_nil (start : Run K) : start.leftAfter [] = start.prerunLeavings := by
  rw [leftAfter, List.flatMap_nil, List.append_nil]

theorem leftAfter_concat (start : Run K) (qs : List (Run K)) (q : Run K) :
    start.leftAfter (qs ++ [q]) = start.leftAfter qs ++ q.iterationLeavings := by
  simp [leftAfter]

/-- A run goes on to a step with a budget from step to step. What is kept whenever a step is left
for the next one, with the former on record, and when the simulation ends, is kept on the whole
way. -/
theorem advanceStepBy_induct {P : List (Run K) → Run K → Prop} (fuel : Nat) (ws : List (Run K))
    {r : Run K} (hstage : r.stage = .simulating) (hstep : r.step ≠ .done) (h : P ws r)
    (hnext : ∀ ws r, r.stage = .simulating → r.step ≠ .done → P ws r →
      P (ws ++ [r]) (r.leaveStep.enterStep r.leaveStep.step.next))
    (hover : ∀ ws r r', r'.options = r.options → r'.drawing = r.drawing → r'.stage = .finished →
      P ws r → P ws r') :
    P (ws ++ leavings fuel r) (advanceStepBy fuel r) := by
  induction fuel generalizing ws r with
  | zero =>
      rw [leavings, List.append_nil]
      exact hover ws r _ rfl rfl rfl h
  | succ fuel ih =>
      have hentered := hnext ws r hstage hstep h
      have hgoes : ¬r.leaveStep.step = .done := by rwa [step_leaveStep]
      have hstage' : (r.leaveStep.enterStep r.leaveStep.step.next).stage = .simulating :=
        r.stage_leaveStep.trans hstage
      rw [leavings, advanceStepBy]
      dsimp only
      rw [if_neg hgoes]
      generalize r.leaveStep.enterStep r.leaveStep.step.next = next at hentered hstage' ⊢
      by_cases hdone : next.step = .done
      · rw [if_pos (Or.inl hdone), if_pos hdone]
        exact hover _ next _ rfl rfl rfl hentered
      · by_cases hpos : 0 < next.stepBudget
        · rw [if_pos (Or.inr hpos), if_neg hdone, if_pos hpos]
          exact hentered
        -- a step without a budget is left at once
        · rw [if_neg (not_or.mpr ⟨hdone, hpos⟩), if_neg hdone, if_neg hpos]
          have hrest := ih _ hstage' hdone hentered
          rwa [List.append_assoc, List.singleton_append] at hrest

/-- An iteration does its work, and then it may go on to another step. -/
theorem iterationLeavings_cases (r : Run K) : ∃ w : Run K, w.drawing = r.worked.drawing ∧
    w.step = r.step ∧ w.stage = r.stage ∧ w.options = r.options ∧
      w.stepIteration = r.stepIteration + 1 ∧
        (r.iterate = w ∧ r.iterationLeavings = [] ∨
          r.iterate = w.advanceStep ∧ r.iterationLeavings = leavings 6 w) := by
  have hcounted := r.counted_worked
  have hiterate : r.iterate = r.worked.endIteration := rfl
  rw [hiterate, iterationLeavings]
  generalize r.worked = w at *
  obtain ⟨hoptions, hstage, hstep, hcount, -⟩ := hcounted
  unfold endIteration
  dsimp only
  split
  · exact ⟨w, rfl, hstep, hstage, hoptions, hcount, Or.inr ⟨rfl, rfl⟩⟩
  · split
    · split
      · exact ⟨w.checkSettled.2, rfl, hstep, hstage, hoptions, hcount, Or.inr ⟨rfl, rfl⟩⟩
      · exact ⟨w.checkSettled.2, rfl, hstep, hstage, hoptions, hcount, Or.inl ⟨rfl, rfl⟩⟩
    · exact ⟨w, rfl, hstep, hstage, hoptions, hcount, Or.inl ⟨rfl, rfl⟩⟩

/-- A preparation leaves steps only where it begins a simulation whose first step has no
budget. -/
theorem prerunLeavings_cases (hcreated : r.stage = .created) :
    (r.prerun.stage = .finished ∧ r.prerunLeavings = [] ∧
        (r.prerun.drawing = r.drawing ∨ r.prerun.drawing = r.placed.drawing)) ∨
      r.prerun = r.begun ∧ r.prerunLeavings = [] ∨
        r.prerun = r.begun.advanceStep ∧ r.prerunLeavings = leavings 6 r.begun := by
  rcases prerun_cases hcreated with ⟨hdraft, heq⟩ | ⟨hdraft, heq⟩ | ⟨hquality, hbegun⟩
  · rw [heq, prerunLeavings, if_neg fun h => h.2.1 hdraft]
    exact Or.inl ⟨rfl, rfl, Or.inl rfl⟩
  · rw [heq, prerunLeavings, if_neg fun h => h.2.1 hdraft, drawing_finish]
    exact Or.inl ⟨rfl, rfl, Or.inr rfl⟩
  · right
    rcases hbegun with ⟨heq, hpos⟩ | ⟨heq, hzero⟩
    · refine Or.inl ⟨heq, ?_⟩
      rw [prerunLeavings, if_neg fun h => Nat.ne_of_gt hpos h.2.2]
    · refine Or.inr ⟨heq, ?_⟩
      rw [prerunLeavings, if_pos ⟨hcreated, hquality, hzero⟩]

end RingLayout.Run
