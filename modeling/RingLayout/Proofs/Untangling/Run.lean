import RingLayout.Proofs.Scalar.Shares
import RingLayout.Proofs.Untangling.Early

/-! # Crossings during a run

From its preparation on a run raises the crossings of no ring, whatever the forces are, and loses
crossings only in iterations. Packing and tiling keep them.
-/

namespace RingLayout.Run

variable {K : Type} [Scalar K] {members : Nat → List Nat} {r : Run K}

/-! ## Whole runs -/

theorem skeleton_postrun (r : Run K) : r.postrun.drawing.skeleton = r.drawing.skeleton := by
  unfold postrun
  split
  · rfl
  · rfl
  · dsimp only
    split
    · rfl
    · have hpacked : ∀ d : Drawing K, (if r.options.packComponents then
          (d.packComponents r.options.effectiveEdgeLength).2 else d).skeleton = d.skeleton := by
        intro d
        split
        · exact d.skeleton_packComponents _
        · rfl
      have htiled : ∀ d : Drawing K, (if r.options.tile then d.tileIsolated
          r.options.tilingPaddingHorizontal r.options.tilingPaddingVertical else d).skeleton =
          d.skeleton := by
        intro d
        split
        · exact d.skeleton_tileIsolated _ _
        · rfl
      split
      · rw [Drawing.skeleton_centerOn, htiled, hpacked]
      · rw [htiled, hpacked]

/-- A run after its preparation. -/
structure Underway (members : Nat → List Nat) (r : Run K) : Prop where
  stage_ne : r.stage ≠ .created
  schedule : ∃ log, OnSchedule log r
  seated : r.drawing.skeleton.Seated members

namespace Underway

theorem stop (h : Underway members r) : Underway members r.stop where
  stage_ne := Stage.noConfusion
  schedule := h.schedule.imp fun _ hlog => hlog.stop
  seated := h.seated

theorem postrun (h : Underway members r) : Underway members r.postrun where
  stage_ne hcreated := by
    have hforward := (rank_postrun r).1
    rw [hcreated] at hforward
    exact absurd (Nat.le_trans (Stage.rank_pos h.stage_ne) hforward) (by decide)
  schedule := h.schedule.imp fun _ hlog => hlog.postrun
  seated := by
    rw [skeleton_postrun]
    exact h.seated

theorem iterate (h : Underway members r) (hstage : r.stage = .simulating) :
    Underway members r.iterate where
  stage_ne hcreated := by
    obtain ⟨log, hlog⟩ := h.schedule
    have hforward := (rank_iterate hlog hstage).1
    rw [hcreated] at hforward
    exact absurd (Nat.le_trans (Stage.rank_pos h.stage_ne) hforward) (by decide)
  schedule := by
    obtain ⟨log, hlog⟩ := h.schedule
    exact ⟨_, (hlog.iterate hstage).1⟩
  seated := (untangles_iterate h.seated).seated

theorem iterate_le (h : Underway members r) (c : Nat) :
    r.iterate.drawing.crossingCount c ≤ r.drawing.crossingCount c := by
  rw [Drawing.crossingCount_eq, Drawing.crossingCount_eq]
  exact (untangles_iterate h.seated).crossings_le c

/-- All that a run loses in crossings, it loses in iterations. -/
theorem path {r' : Run K} {qs : List (Run K)} (h : Underway members r) (hpath : Path r qs r') :
    Underway members r' ∧ (∀ q ∈ qs, Underway members q ∧ q.stage = .simulating) ∧
      ∀ c, r'.drawing.crossingCount c + (qs.map fun q =>
          q.drawing.crossingCount c - q.iterate.drawing.crossingCount c).sum =
        r.drawing.crossingCount c := by
  induction hpath with
  | refl => exact ⟨h, by simp, by simp⟩
  | prerun _ ih =>
      rw [prerun_of_ne h.stage_ne] at ih
      exact ih h
  | @iterate r _ qs hstage _ ih =>
      obtain ⟨hend, hstarts, hsum⟩ := ih (h.iterate hstage)
      refine ⟨hend, ?_, fun c => ?_⟩
      · rintro q (_ | ⟨_, hq⟩)
        · exact ⟨h, hstage⟩
        · exact hstarts q hq
      · have hle := h.iterate_le c
        have hrest := hsum c
        rw [List.map_cons, List.sum_cons]
        omega
  | stop _ _ ih => exact ih h.stop
  | @postrun r _ _ _ ih =>
      have hsame : ∀ c, r.postrun.drawing.crossingCount c = r.drawing.crossingCount c := by
        intro c
        rw [Drawing.crossingCount_eq, Drawing.crossingCount_eq, skeleton_postrun]
      obtain ⟨hend, hstarts, hsum⟩ := ih h.postrun
      exact ⟨hend, hstarts, fun c => (hsum c).trans (hsame c)⟩

variable [LawfulShares K]

theorem budgetFor_pos (h : Underway members r) (hstage : r.stage = .simulating) :
    0 < r.budgetFor .exchange := by
  obtain ⟨log, hlog⟩ := h.schedule
  obtain ⟨-, hbudget, hlt, -⟩ := hlog.active hstage
  exact budgetFor_exchange_pos (s := r.step) (hbudget ▸ Nat.zero_lt_of_lt hlt)

end Underway

/-- What becomes of the crossings of a prepared run in calls in turn. -/
structure KeepsUntangling (prepared : Run K) (calls : List Call) : Prop where
  call_le : ∀ call c, ((prepared.afterAll calls).after call).drawing.crossingCount c ≤
    (prepared.afterAll calls).drawing.crossingCount c
  iterate_le : ∀ q ∈ prepared.starts calls, ∀ c,
    q.iterate.drawing.crossingCount c ≤ q.drawing.crossingCount c
  /-- Iterations of other steps than that of the exchanges keep the crossings. -/
  iterate_eq : ∀ q ∈ prepared.starts calls, q.step ≠ .exchange → ∀ c,
    q.iterate.drawing.crossingCount c = q.drawing.crossingCount c
  /-- Motion and reversals keep the crossings in every step. -/
  turned_eq : ∀ q ∈ prepared.starts calls, ∀ c,
    q.turned.drawing.crossingCount c = q.drawing.crossingCount c
  postrun_eq : ∀ c, (prepared.afterAll calls).postrun.drawing.crossingCount c =
    (prepared.afterAll calls).drawing.crossingCount c
  /-- Crossings are lost by exchanges, or by members that go inside afterwards. -/
  untangled_of_lt : ∀ q ∈ prepared.starts calls, ∀ c,
    q.iterate.drawing.crossingCount c < q.drawing.crossingCount c → q.Untangled c
  /-- Crossings are lost in iterations only. -/
  add_sum : ∀ c, (prepared.afterAll calls).drawing.crossingCount c +
      ((prepared.starts calls).map fun q =>
        q.drawing.crossingCount c - q.iterate.drawing.crossingCount c).sum =
    prepared.drawing.crossingCount c

/-- From its preparation on a run raises the crossings of no ring, and lowers them by exchanges
and by moving members inside only. -/
theorem keepsUntangling [LawfulShares K] {g : Graph K} {o : Options K} {start : Run K}
    (h : create g o = .ok start) (calls : List Call) : KeepsUntangling start.prerun calls := by
  obtain ⟨d, hbuild, rfl⟩ := create_eq_ok h
  have hstart : Underway (fun c => (d.ring c).order) (ofDrawing d o).prerun :=
    ⟨prerun_stage_ne _, ⟨[], (onSchedule_ofDrawing d o).prerun⟩,
      seated_prerun (Drawing.seated_build hbuild)⟩
  generalize (ofDrawing d o).prerun = prepared at hstart
  obtain ⟨hend, hstarts, hsum⟩ := hstart.path (prepared.path_afterAll calls)
  constructor
  case call_le =>
    intro call c
    obtain ⟨-, -, hcall⟩ := hend.path (path_after _ call)
    rw [← hcall c]
    exact Nat.le_add_right _ _
  case iterate_le => exact fun q hq c => (hstarts q hq).1.iterate_le c
  case iterate_eq =>
    intro q hq hstep c
    obtain ⟨hunderway, hstage⟩ := hstarts q hq
    rw [Drawing.crossingCount_eq, Drawing.crossingCount_eq,
      crossings_iterate hunderway.seated hstep (hunderway.budgetFor_pos hstage)]
  case turned_eq => exact fun q hq => crossingCount_turned (hstarts q hq).1.seated
  case postrun_eq =>
    intro c
    rw [Drawing.crossingCount_eq, Drawing.crossingCount_eq, skeleton_postrun]
  case untangled_of_lt =>
    intro q hq c hlt
    obtain ⟨hunderway, hstage⟩ := hstarts q hq
    exact untangled_of_lt hunderway.seated (hunderway.budgetFor_pos hstage) hstage hlt
  case add_sum => exact hsum

/-- Members that are all linked with each other cannot be arranged without a crossing. The tangle's
ring has one when its run is prepared, and has lost it by the time of the last step. -/
theorem keepsUntangling_tangle : ∃ start : Run ℝ,
    create Drawing.tangle (Drawing.tangledRing 10) = .ok start ∧
      start.prerun.drawing.crossingCount 0 = 1 ∧ ∃ calls, KeepsUntangling start.prerun calls ∧
        (start.prerun.afterAll calls).drawing.crossingCount 0 = 0 := by
  have hcreate := create_of_build (Drawing.build_tangle 10)
  have hprepared := amid_tangled (Nat.le_refl 10)
  obtain ⟨calls, hpolish⟩ := exists_calls_tangled
  refine ⟨_, hcreate, ?_, calls, keepsUntangling hcreate calls, ?_⟩
  · rw [Drawing.crossingCount_eq, hprepared.skeleton_eq, ← Drawing.crossingCount_eq]
    exact Drawing.crossingCount_tangled
  · rw [Drawing.crossingCount_eq, hpolish.skeleton_eq]
    rfl

end RingLayout.Run
