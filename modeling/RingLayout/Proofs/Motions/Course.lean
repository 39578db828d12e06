import RingLayout.Proofs.Scalar.Real
import RingLayout.Proofs.Motions.Sizes

/-! # The course of a run

From its beginning on the drawing of a run is seeded and drifts; what is set aside moves only when
the drawing is packed in the end. So what seeding and motions keep of a new drawing is kept in
every state of the run, and between its states as well.
-/

namespace RingLayout.Run

variable {K : Type} [Scalar K] {members : Nat → List Nat} {d d' : Drawing K} {r : Run K}

/-! ## Courses -/

/-- A drawing is seeded or changed in some other way, one change after the other. -/
def Course (R : Drawing K → Drawing K → Prop) : Drawing K → Drawing K → Prop :=
  Relation.ReflTransGen fun d d' => Seeded d d' ∨ R d d'

/-- The motions of a run, however far apart the members of rings are. -/
abbrev Moves : Drawing K → Drawing K → Prop := Drawing.Motion fun _ => True

/-- The drifts of a run. -/
abbrev Drifts : Drawing K → Drawing K → Prop := Drawing.Drift fun _ => True

namespace Course

variable {R : Drawing K → Drawing K → Prop}

theorem trans {d'' : Drawing K} (h : Course R d d') (h' : Course R d' d'') : Course R d d'' :=
  Relation.ReflTransGen.trans h h'

theorem seeded (h : Seeded d d') : Course R d d' := Relation.ReflTransGen.single (Or.inl h)

theorem of_steps (h : Relation.ReflTransGen R d d') : Course R d d' :=
  Relation.ReflTransGen.mono (fun _ _ => Or.inr) _ _ h

theorem moves (h : Course Drifts d d') : Course Moves d d' :=
  Relation.ReflTransGen.mono (fun _ _ => Or.imp_right Drawing.Motion.drift) _ _ h

end Course

theorem Seeded.evolves (h : Seeded d d') (hd : d.skeleton.Sound members) :
    Skeleton.Evolves members d.skeleton d'.skeleton := by
  rw [h.skeleton_eq]
  exact .refl hd

namespace Course

/-- What holds of a sound drawing and is kept by seeding and by motions holds in the end. -/
theorem induct (h : Course Moves d d') (hd : d.skeleton.Sound members) {P : Drawing K → Prop}
    (hstart : P d) (hseed : ∀ e e', e.skeleton.Sound members → P e → Seeded e e' → P e')
    (hmove : ∀ e e', e.skeleton.Sound members → P e → Moves e e' → P e') : P d' := by
  refine Drawing.reflTransGen_induct ?_ h hd hstart ?_
  · rintro e e' he (hseeded | hmotion)
    · exact (hseeded.evolves he).sound
    · exact (hmotion.evolves he).sound
  · exact fun e e' he hP => Or.rec (hseed e e' he hP) (hmove e e' he hP)

variable (h : Course Moves d d') (hd : d.skeleton.Sound members)
include h hd

theorem evolves : Skeleton.Evolves members d.skeleton d'.skeleton := by
  refine h.induct hd (P := fun e => Skeleton.Evolves members d.skeleton e.skeleton) (.refl hd) ?_ ?_
  · exact fun e e' he hevolves hseeded => hevolves.trans (hseeded.evolves he)
  · exact fun e e' he hevolves hmotion => hevolves.trans (hmotion.evolves he)

theorem sound : d'.skeleton.Sound members := (h.evolves hd).sound

theorem resizes : Drawing.Resizes d d' := by
  have hboth : d'.skeleton.plan = d.skeleton.plan ∧ Drawing.Resizes d d' := by
    refine h.induct hd (P := fun e => e.skeleton.plan = d.skeleton.plan ∧ Drawing.Resizes d e)
      ⟨rfl, .of_eq fun _ => rfl⟩ ?_ ?_
    · intro e e' he hP hseeded
      exact ⟨(hseeded.evolves he).plan_eq.trans hP.1, hP.2.trans hP.1 (.of_eq hseeded.size_eq)⟩
    · intro e e' he hP hmotion
      exact ⟨(hmotion.evolves he).plan_eq.trans hP.1, hP.2.trans hP.1 (hmotion.resizes he)⟩
  exact hboth.2

omit h in
/-- What is set aside is where it was before it is tiled. -/
theorem tile_eq (h : Course Drifts d d') {v : Nat} (hv : v ∈ d.tiled) :
    (d'.body v).box = (d.body v).box := by
  have hboth : v ∈ d'.tiled ∧ (d'.body v).box = (d.body v).box := by
    have hsame : ∀ e e' : Drawing K, Skeleton.Evolves members e.skeleton e'.skeleton →
        e'.tiled = e.tiled := fun _ _ hevolves => hevolves.tiled_eq
    refine Drawing.reflTransGen_induct (P := fun e => v ∈ e.tiled ∧ (e.body v).box = (d.body v).box)
      ?_ h hd ⟨hv, rfl⟩ ?_
    · rintro e e' he (hseeded | hdrift)
      · exact (hseeded.evolves he).sound
      · exact (hdrift.evolves he).sound
    · rintro e e' he ⟨htiled, hbox⟩ (hseeded | hdrift)
      · rw [hsame e e' (hseeded.evolves he)]
        exact ⟨htiled, (hseeded.tile_eq v htiled).trans hbox⟩
      · rw [hsame e e' (hdrift.evolves he)]
        exact ⟨htiled, (hdrift.tile_eq he htiled).trans hbox⟩
  exact hboth.2

end Course

/-! ## Runs -/

/-- The drawing of a run goes back to another one, which has only drifted until the end. -/
structure Descends (d : Drawing K) (r : Run K) : Prop where
  moves : Course Moves d r.drawing
  drifts : r.stage ≠ .postProcessed → Course Drifts d r.drawing

namespace Descends

variable (h : Descends d r)
include h

/-- A drawing that has drifted goes on to drift. -/
theorem of_drifts {r' : Run K} (hstage : r.stage ≠ .postProcessed)
    (hdrifts : Course Drifts r.drawing r'.drawing) : Descends d r' where
  moves := h.moves.trans hdrifts.moves
  drifts _ := (h.drifts hstage).trans hdrifts

theorem postrun (hd : d.skeleton.Sound members) : Descends d r.postrun := by
  by_cases hcreated : r.stage = .created
  · rwa [postrun_eq, if_pos (Or.inl hcreated)]
  · refine ⟨h.moves.trans (.of_steps (motions_postrun (h.moves.sound hd))), fun hstage => ?_⟩
    exact absurd (postrun_stage hcreated) hstage

theorem prerun (hd : d.skeleton.Sound members) : Descends d r.prerun := by
  by_cases hcreated : r.stage = .created
  · have hstage : r.stage ≠ .postProcessed := hcreated ▸ Stage.noConfusion
    apply h.of_drifts hstage
    rcases prerun_drawing_cases (S := fun _ => True) hcreated trivial (h.moves.sound hd) with
      ⟨-, heq⟩ | ⟨seeded, hseeded, hdrifts⟩
    · rw [heq]
      exact Relation.ReflTransGen.refl
    · have harranged : Drawing.Drifts (fun _ => True) seeded
          (arrangeAll seeded r.options.effectiveSeparation) := drifts_arrangeAll seeded trivial
      exact (Course.seeded hseeded).trans (.of_steps (harranged.trans hdrifts))
  · rwa [prerun_of_ne hcreated]

theorem path {r' : Run K} {qs : List (Run K)} (hd : d.skeleton.Sound members)
    (hpath : Path r qs r') : Descends d r' ∧ ∀ q ∈ qs, Descends d q := by
  induction hpath with
  | refl => exact ⟨h, by simp⟩
  | prerun _ ih => exact ih (h.prerun hd)
  | iterate hstage _ ih =>
      have hiterate := drifts_iterate (S := fun _ => True) trivial (h.moves.sound hd)
      obtain ⟨hend, hstarts⟩ := ih (h.of_drifts (hstage ▸ Stage.noConfusion) (.of_steps hiterate))
      exact ⟨hend, List.forall_mem_cons.mpr ⟨h, hstarts⟩⟩
  | stop hstage _ ih =>
      exact ih (h.of_drifts (hstage ▸ Stage.noConfusion) Relation.ReflTransGen.refl)
  | postrun _ ih => exact ih (h.postrun hd)

end Descends

/-- The drawings that come up in a run: in the states that a caller sees, where iterations start,
while the run is prepared, and between operations. -/
inductive Visits (start : Run K) : Drawing K → Prop
  | after (calls : List Call) : Visits start (start.afterAll calls).drawing
  | iteration (calls : List Call) {q : Run K} (hq : q ∈ start.starts calls) :
      Visits start q.drawing
  | seedNodes {r : Run K} (h : Visits start r.drawing) : Visits start r.seedNodes.drawing
  | seedHub {d : Drawing K} (h : Visits start d) {c : Nat} (hc : c ∈ d.ringNumbers) :
      Visits start (seedHub d c)
  | operate {d : Drawing K} (h : Visits start d) {op : Operation K} (hfits : op.Fits d) :
      Visits start (op.apply d)

theorem descends_ofDrawing (d : Drawing K) (o : Options K) : Descends d (ofDrawing d o) :=
  ⟨Relation.ReflTransGen.refl, fun _ => Relation.ReflTransGen.refl⟩

/-- All drawings of a run go back to the one it begins with. -/
theorem Visits.moves {o : Options K} (h : Visits (ofDrawing d o) d')
    (hd : d.skeleton.Sound members) : Course Moves d d' := by
  have hpath := fun calls =>
    (descends_ofDrawing d o).path hd ((ofDrawing d o).path_afterAll calls)
  induction h with
  | after calls => exact (hpath calls).1.moves
  | iteration calls hq => exact ((hpath calls).2 _ hq).moves
  | @seedNodes r _ ih => exact ih.trans (.seeded (Seeded.seedNodes r))
  | seedHub _ hc ih => exact ih.trans (.seeded (Seeded.seedHub (ih.sound hd) hc))
  | operate _ hfits ih =>
      exact ih.trans (.of_steps (Operation.motions_apply (ih.sound hd) hfits fun _ _ => trivial))

end RingLayout.Run

namespace RingLayout

/-- A ring of two with a link to a third node, a linked pair, and two nodes without links. One of
these is in a group. -/
noncomputable def Drawing.partsAndLoners : Graph ℝ where
  nodes := [⟨"a", 30.0, 20.0, none, none, false⟩, ⟨"b", 30.0, 20.0, none, none, false⟩,
    ⟨"c", 30.0, 20.0, none, none, false⟩, ⟨"d", 30.0, 20.0, none, none, false⟩,
    ⟨"e", 30.0, 20.0, none, none, false⟩, ⟨"f", 60.0, 20.0, none, some "h", false⟩,
    ⟨"g", 20.0, 40.0, none, none, false⟩, ⟨"h", 0.0, 0.0, none, none, true⟩]
  edges := [⟨"ac", "a", "c"⟩, ⟨"de", "d", "e"⟩]

theorem Drawing.build_partsAndLoners : build partsAndLoners pairRing =
    .ok (ofClusters partsAndLoners pairRing [[0, 1]]) := rfl

theorem Run.create_partsAndLoners : create Drawing.partsAndLoners Drawing.pairRing =
    .ok (ofDrawing (Drawing.ofClusters Drawing.partsAndLoners Drawing.pairRing [[0, 1]])
      Drawing.pairRing) :=
  create_of_build Drawing.build_partsAndLoners

end RingLayout
