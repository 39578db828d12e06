import RingLayout.Proofs.Quotient
import RingLayout.Proofs.Untangling.Run

/-! # The quotient during a run

No operation changes how the nodes of a drawing hang together. So what a run finds out when it
has placed its rings stays right to its end.
-/

namespace RingLayout

variable {K : Type} [Scalar K] {members : Nat → List Nat}

/-- Whether the preparation of a run places the rings. -/
def Options.PlacesRings (o : Options K) : Prop := o.quality ≠ .draft ∨ o.randomize = true

namespace Drawing

/-- Whether the roots hang together is a matter of the wiring. -/
theorem rootIsConnected_congr {d d' : Drawing K} (h : d'.skeleton.wiring = d.skeleton.wiring) :
    d'.rootIsConnected = d.rootIsConnected := by
  have hroots : d'.roots = d.roots := congrArg Wiring.roots h
  simp only [rootIsConnected, rootComponents, ← rootPairs_wiring, hroots, h]

end Drawing

namespace Run

variable {r : Run K}

/-! ## The flag -/

theorem connected_advanceStepBy (fuel : Nat) (r : Run K) :
    (advanceStepBy fuel r).connected = r.connected := by
  induction fuel generalizing r with
  | zero => rfl
  | succ fuel ih =>
      have hleave : r.leaveStep.connected = r.connected := by rw [leaveStep_eq]
      rw [advanceStepBy]
      dsimp only
      split
      · exact hleave
      · split
        · exact hleave
        · split
          · exact hleave
          · exact (ih _).trans hleave

theorem connected_iterate (r : Run K) : r.iterate.connected = r.connected := by
  obtain ⟨d, cooling, last, memory, hworked⟩ := r.worked_eq
  rcases r.iterate_cases with ⟨x, heq, -⟩ | ⟨x, heq, -⟩
  · rw [heq, hworked]
  · rw [heq, advanceStep, connected_advanceStepBy, hworked]

omit [Scalar K] in
theorem connected_finish (r : Run K) : r.finish.connected = r.connected := rfl

theorem connected_postrun (r : Run K) : r.postrun.connected = r.connected := by
  rcases r.postrun_cases with heq | ⟨-, -, d, heq⟩ <;> rw [heq]

theorem connected_placed (r : Run K) :
    r.placed.connected = r.placed.drawing.rootIsConnected := by
  unfold placed
  dsimp only

theorem connected_begun (r : Run K) : r.begun.connected = r.begun.drawing.rootIsConnected := by
  rw [Drawing.rootIsConnected_congr (congrArg Skeleton.wiring r.skeleton_begun),
    ← connected_placed]
  unfold begun
  generalize r.placed = w
  rfl

theorem connected_prerun (hstage : r.stage = .created) (hplaces : r.options.PlacesRings)
    (h : r.drawing.skeleton.Seated members) :
    r.prerun.connected = r.prerun.drawing.rootIsConnected := by
  have hbegun := (reseats_begun h).seated
  rw [prerun_eq, if_neg (not_not_intro hstage)]
  split
  next hkeep =>
    rw [Bool.and_eq_true, decide_eq_true_eq, Bool.not_eq_true'] at hkeep
    rcases hplaces with hquality | hrandomize
    · exact absurd hkeep.1 hquality
    · rw [hrandomize] at hkeep
      cases hkeep.2
  next =>
    split
    · rw [drawing_finish, connected_finish, connected_placed]
    · split
      · rw [Drawing.rootIsConnected_congr (untangles_advanceStep hbegun).wiring_eq,
          ← connected_begun, advanceStep, connected_advanceStepBy]
      · exact connected_begun r

/-! ## Whole runs -/

/-- A run for options, with what is known of its drawing. -/
structure Informed (o : Options K) (members : Nat → List Nat) (r : Run K) : Prop where
  schedule : ∃ log, OnSchedule log r
  options_eq : r.options = o
  seated : r.drawing.skeleton.Seated members
  rooted : r.drawing.skeleton.wiring.Rooted
  connected_eq : r.stage ≠ .created → o.PlacesRings →
    r.connected = r.drawing.rootIsConnected

namespace Informed

variable {o : Options K}

theorem prerun (h : Informed o members r) : Informed o members r.prerun where
  schedule := h.schedule.imp fun _ hlog => hlog.prerun
  options_eq := (options_prerun r).trans h.options_eq
  seated := seated_prerun h.seated
  rooted := by
    rw [(reseats_prerun h.seated).wiring_eq]
    exact h.rooted
  connected_eq _ hplaces := by
    by_cases hstage : r.stage = .created
    · exact connected_prerun hstage (h.options_eq ▸ hplaces) h.seated
    · rw [prerun_of_ne hstage]
      exact h.connected_eq hstage hplaces

theorem iterate (h : Informed o members r) (hstage : r.stage = .simulating) :
    Informed o members r.iterate where
  schedule := by
    obtain ⟨log, hlog⟩ := h.schedule
    exact ⟨_, (hlog.iterate hstage).1⟩
  options_eq := by
    obtain ⟨log, hlog⟩ := h.schedule
    exact (options_iterate hlog hstage).trans h.options_eq
  seated := (untangles_iterate h.seated).seated
  rooted := by
    rw [(untangles_iterate h.seated).wiring_eq]
    exact h.rooted
  connected_eq _ hplaces := by
    have hcreated : r.stage ≠ .created := by
      rw [hstage]
      exact Stage.noConfusion
    rw [connected_iterate, h.connected_eq hcreated hplaces,
      Drawing.rootIsConnected_congr (untangles_iterate h.seated).wiring_eq]

theorem stop (h : Informed o members r) (hstage : r.stage = .simulating) :
    Informed o members r.stop where
  schedule := h.schedule.imp fun _ hlog => hlog.stop
  options_eq := h.options_eq
  seated := h.seated
  rooted := h.rooted
  connected_eq _ hplaces := by
    have hcreated : r.stage ≠ .created := by
      rw [hstage]
      exact Stage.noConfusion
    exact h.connected_eq hcreated hplaces

theorem postrun (h : Informed o members r) : Informed o members r.postrun where
  schedule := h.schedule.imp fun _ hlog => hlog.postrun
  options_eq := (options_postrun r).trans h.options_eq
  seated := by
    rw [skeleton_postrun]
    exact h.seated
  rooted := by
    rw [skeleton_postrun]
    exact h.rooted
  connected_eq hcreated hplaces := by
    have hcreated' : r.stage ≠ .created := by
      intro hstage
      refine hcreated ?_
      rw [Run.postrun, hstage]
      exact hstage
    rw [connected_postrun, h.connected_eq hcreated' hplaces,
      Drawing.rootIsConnected_congr (congrArg Skeleton.wiring r.skeleton_postrun)]

theorem path {r' : Run K} {qs : List (Run K)} (h : Informed o members r) (hpath : Path r qs r') :
    Informed o members r' ∧ ∀ q ∈ qs, q.stage = .simulating ∧ Informed o members q := by
  induction hpath with
  | refl => exact ⟨h, by simp⟩
  | prerun _ ih => exact ih h.prerun
  | iterate hstage _ ih =>
      obtain ⟨hend, hstarts⟩ := ih (h.iterate hstage)
      exact ⟨hend, List.forall_mem_cons.mpr ⟨⟨hstage, h⟩, hstarts⟩⟩
  | stop hstage _ ih => exact ih (h.stop hstage)
  | postrun _ ih => exact ih h.postrun

end Informed

/-- A run for options that knows how the nodes of its drawing hang together. -/
structure KnowsConnection (o : Options K) (r : Run K) : Prop where
  seen : ∀ ops, (Operation.run ops r.drawing).SeenFromRoots
  /-- What has been found out when the rings were placed is still so. -/
  connected_eq : r.stage ≠ .created → o.PlacesRings →
    r.connected = r.drawing.rootIsConnected

theorem Informed.knowsConnection {o : Options K} (h : Informed o members r) :
    KnowsConnection o r where
  seen ops := by
    refine Drawing.seenFromRoots_of_rooted ?_
    rw [(Operation.reseats_run h.seated ops).wiring_eq]
    exact h.rooted
  connected_eq := h.connected_eq

theorem informed_ofDrawing {g : Graph K} {o : Options K} {d : Drawing K}
    (h : Drawing.build g o = .ok d) :
    Informed o (fun c => (d.ring c).order) (ofDrawing d o) where
  schedule := ⟨[], onSchedule_ofDrawing d o⟩
  options_eq := rfl
  seated := Drawing.seated_build h
  rooted := Drawing.rooted_build h
  connected_eq hcreated := absurd rfl hcreated

/-- A run knows how the nodes of its drawing hang together after all calls and in all iterations,
and it would know so after any operations on the drawing. -/
theorem knowsConnection_afterAll {g : Graph K} {o : Options K} {start : Run K}
    (h : create g o = .ok start) (calls : List Call) :
    KnowsConnection o (start.afterAll calls) ∧
      ∀ q ∈ start.starts calls, q.stage = .simulating ∧ KnowsConnection o q := by
  obtain ⟨d, hbuild, rfl⟩ := create_eq_ok h
  obtain ⟨hend, hstarts⟩ := (informed_ofDrawing hbuild).path ((ofDrawing d o).path_afterAll calls)
  exact ⟨hend.knowsConnection, fun q hq => (hstarts q hq).imp_right Informed.knowsConnection⟩

end Run

namespace Drawing

/-- Five nodes in two parts: one of a pair has a link to a third node, and the fourth has a link
to a fifth. -/
noncomputable def twoParts : Graph ℝ where
  nodes := [⟨"a", 30, 20, none, none, false⟩, ⟨"b", 30, 20, none, none, false⟩,
    ⟨"c", 30, 20, none, none, false⟩, ⟨"d", 30, 20, none, none, false⟩,
    ⟨"e", 30, 20, none, none, false⟩]
  edges := [⟨"ac", "a", "c"⟩, ⟨"de", "d", "e"⟩]

/-- The pair shares a ring. -/
noncomputable def pairRing : Options ℝ :=
  { (Options.defaults : Options ℝ) with clustering := .cells [["a", "b"]] }

theorem build_twoParts :
    build twoParts pairRing = .ok (ofClusters twoParts pairRing [[0, 1]]) := rfl

end Drawing

namespace Run

theorem create_twoParts : create Drawing.twoParts Drawing.pairRing =
    .ok (ofDrawing (Drawing.ofClusters Drawing.twoParts Drawing.pairRing [[0, 1]])
      Drawing.pairRing) :=
  create_of_build Drawing.build_twoParts

theorem knowsConnection_afterAll_twoParts : ∃ start : Run ℝ,
    create Drawing.twoParts Drawing.pairRing = .ok start ∧
      KnowsConnection Drawing.pairRing (start.afterAll [.tick fun _ => 0, .postrun]) ∧
      (∀ q ∈ start.starts [.tick fun _ => 0, .postrun],
        q.stage = .simulating ∧ KnowsConnection Drawing.pairRing q) ∧
      ∀ ops spacing, ((Operation.run ops start.drawing).packComponents spacing).1 =
        Nat.card (Quotient (Operation.run ops start.drawing).linked) := by
  obtain ⟨hend, hstarts⟩ := knowsConnection_afterAll create_twoParts [.tick fun _ => 0, .postrun]
  refine ⟨_, create_twoParts, hend, hstarts, fun ops => ?_⟩
  exact ((knowsConnection_afterAll create_twoParts []).1.seen ops).packComponents_fst fun _ => rfl

end Run

end RingLayout
