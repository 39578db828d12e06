import RingLayout.Proofs.Renaming.Build
import RingLayout.Proofs.Ticks

/-! # Layouts under other names

No layout depends on how nodes, groups and edges are called: under other names the same positions
and bounds come out.
-/

open scoped List

namespace RingLayout

variable {K : Type}

def Options.rename (f : String → String) (o : Options K) : Options K :=
  { o with clustering := o.clustering.rename f }

namespace Layout

/-- A layout that is another one under new names. -/
structure Renamed (f : String → String) (l l' : Layout K) : Prop where
  positions : l'.positions ~ l.positions.map (Prod.map f id)
  groupBounds : l'.groupBounds ~ l.groupBounds.map (Prod.map f id)
  diagnostics : l'.diagnostics = l.diagnostics

theorem sortById_perm {α : Type} (entries : List (String × α)) : sortById entries ~ entries :=
  List.mergeSort_perm ..

/-- Sorting goes by the new names, which come in another order. -/
theorem sortById_map_perm {α : Type} (f : String → String) (entries : List (String × α)) :
    sortById (entries.map (Prod.map f id)) ~ (sortById entries).map (Prod.map f id) :=
  (sortById_perm _).trans ((sortById_perm entries).symm.map _)

variable [Scalar K] {f : String → String}

theorem groupBoxes_rename (hf : Function.Injective f) (d : Drawing K) (group : String) :
    groupBoxes (d.rename f) (f group) = groupBoxes d group := by
  have hgroup : ∀ b : Body K, (b.rename f).group = some (f group) ↔ b.group = some group :=
    fun b => by simp [Body.rename, hf.eq_iff]
  have hbodies : (d.rename f).bodies.toList = d.bodies.toList.map (·.rename f) := by
    simp [Drawing.rename]
  simp only [groupBoxes, hbodies, Drawing.nodeCount_rename, ← List.map_take, List.flatMap_map,
    hgroup, Body.role_rename, Body.box_rename, Drawing.body_rename, Drawing.ring_rename]

theorem ofRun_inGuise (w : Guise K) (hname : Function.Injective w.name) (r : Run K) :
    Renamed w.name (ofRun r) (ofRun (r.inGuise w)) := by
  have hbodies : (r.drawing.rename w.name).bodies.toList =
      r.drawing.bodies.toList.map (·.rename w.name) := by
    simp [Drawing.rename]
  constructor
  case positions =>
    refine List.Perm.trans (.of_eq (congrArg sortById ?_)) (sortById_map_perm w.name _)
    change ((r.drawing.rename w.name).bodies.toList.take _).filterMap _ = _
    rw [hbodies, ← List.map_take, List.filterMap_map, List.map_filterMap]
    refine List.filterMap_congr fun b _ => ?_
    simp only [Function.comp_apply, Body.rename, Option.map_map]
    rfl
  case groupBounds =>
    refine List.Perm.trans (.of_eq (congrArg sortById ?_)) (sortById_map_perm w.name _)
    change (r.drawing.groups.map w.name).filterMap _ = _
    rw [List.filterMap_map, List.map_filterMap]
    refine List.filterMap_congr fun group _ => ?_
    have hboxes : groupBoxes (r.inGuise w).drawing (w.name group) = groupBoxes r.drawing group :=
      groupBoxes_rename hname r.drawing group
    simp only [Function.comp_apply, bounds?, hboxes, Option.map_map]
    rfl
  case diagnostics => rfl

/-- The layouts that an observer is shown, and the last one. -/
def shown (g : Graph K) (o : Options K) (clock : Clock) :
    Except GraphError (List (Layout K) × Layout K) :=
  withProgress g o clock (fun seen l => seen ++ [l]) []

theorem Shows.shown_eq {g : Graph K} {o : Options K} {clock : Clock} {total : Nat}
    {result : Layout K} {start : Run K} (h : Shows g o clock total result start) :
    shown g o clock = .ok ((List.range' 1 (Run.ticksFor total o.refresh)).map fun n =>
      ofRun (start.ticked clock n), result) := by
  rw [shown, h.withProgress_eq, List.foldl_append_eq_append, List.nil_append, ← List.flatMap_def,
    List.flatMap_singleton']

section Rename

variable (hf : Function.Injective f) {edgeIds : Nat → String} {g : Graph K} {o : Options K}
  (htime : o.timeBudget = none) (clock clock' : Clock)
include hf htime

/-- Runs from a drawing and from its renamed drawing take the same course. -/
theorem shown_rename_of_build {d : Drawing K} (hd : Drawing.build g o = .ok d)
    (hd' : Drawing.build (g.rename f edgeIds) (o.rename f) = .ok (d.rename f)) :
    ∃ seen seen' l l', (shown g o clock = .ok (seen, l) ∧ compute g o clock = .ok l) ∧
      (shown (g.rename f edgeIds) (o.rename f) clock' = .ok (seen', l') ∧
        compute (g.rename f edgeIds) (o.rename f) clock' = .ok l') ∧
      List.Forall₂ (Renamed f) seen seen' ∧ Renamed f l l' := by
  let w : Guise K := ⟨f, Clustering.rename f, id⟩
  have hstart : Run.ofDrawing (d.rename f) (o.rename f) = (Run.ofDrawing d o).inGuise w :=
    Run.ofDrawing_inGuise w d o
  obtain ⟨total, hlasts⟩ := (Run.onSchedule_ofDrawing d o).prerun.exists_lasts
  have hlasts' := hlasts.inGuise w
  rw [← Run.prerun_inGuise, ← hstart] at hlasts'
  have hshows := shows_of_lasts hd htime hlasts clock
  have hshows' := shows_of_lasts hd' htime hlasts' clock'
  refine ⟨_, _, _, _, ⟨hshows.shown_eq, hshows.compute_eq⟩, ⟨hshows'.shown_eq, hshows'.compute_eq⟩,
    ?_, ?_⟩
  · apply List.forall₂_map_left_iff.mpr
    apply List.forall₂_map_right_iff.mpr
    refine List.forall₂_same.mpr fun n _ => ?_
    rw [hlasts.ticked_eq (Run.onSchedule_ofDrawing ..) htime,
      hlasts'.ticked_eq (Run.onSchedule_ofDrawing ..) htime, hstart, Run.prerun_inGuise,
      Run.onward_iterate_inGuise]
    exact ofRun_inGuise w hf _
  · rw [hstart, Run.prerun_inGuise, Run.onward_iterate_inGuise, Run.postrun_inGuise]
    exact ofRun_inGuise w hf _

/-- A graph and the same graph under other names are both refused, or they are laid out and shown
alike. -/
theorem shown_rename (hclustering : ∀ number, o.clustering ≠ .classify number) :
    (∃ err err', (shown g o clock = .error err ∧ compute g o clock = .error err) ∧
      shown (g.rename f edgeIds) (o.rename f) clock' = .error err' ∧
        compute (g.rename f edgeIds) (o.rename f) clock' = .error err') ∨
    ∃ seen seen' l l', (shown g o clock = .ok (seen, l) ∧ compute g o clock = .ok l) ∧
      (shown (g.rename f edgeIds) (o.rename f) clock' = .ok (seen', l') ∧
        compute (g.rename f edgeIds) (o.rename f) clock' = .ok l') ∧
      List.Forall₂ (Renamed f) seen seen' ∧ Renamed f l l' := by
  have hrefused : ∀ {g : Graph K} {o : Options K} {err : GraphError} (clock : Clock),
      Drawing.build g o = .error err →
        shown g o clock = .error err ∧ compute g o clock = .error err := fun clock herr => by
    rw [shown, withProgress, compute, Run.create, herr]
    exact ⟨rfl, rfl⟩
  have hbuild : (Drawing.build (g.rename f edgeIds) (o.rename f)).toOption =
      (Drawing.build g o).toOption.map (Drawing.rename f) :=
    Drawing.build_rename hf edgeIds g o hclustering id
  cases hd : Drawing.build g o with
  | error err =>
      cases hd' : Drawing.build (g.rename f edgeIds) (o.rename f) with
      | error err' => exact Or.inl ⟨err, err', hrefused clock hd, hrefused clock' hd'⟩
      | ok d =>
          rw [hd, hd'] at hbuild
          cases hbuild
  | ok d =>
      cases hd' : Drawing.build (g.rename f edgeIds) (o.rename f) with
      | error err =>
          rw [hd, hd'] at hbuild
          cases hbuild
      | ok d' =>
          rw [hd, hd'] at hbuild
          cases hbuild
          exact Or.inr (shown_rename_of_build hf htime clock clock' hd hd')

end Rename

theorem shown_rename_crossedPairs :
    Function.Injective ("the " ++ ·) ∧ Drawing.oneRing.timeBudget = none ∧
      (∀ number, Drawing.oneRing.clustering ≠ .classify number) ∧
      ∃ seen seen' l l',
        (shown Drawing.crossedPairs Drawing.oneRing (fun _ => 0) = .ok (seen, l) ∧
          compute Drawing.crossedPairs Drawing.oneRing (fun _ => 0) = .ok l) ∧
        (shown (Drawing.crossedPairs.rename ("the " ++ ·) fun _ => "") 
            (Drawing.oneRing.rename ("the " ++ ·)) (fun _ => 1) = .ok (seen', l') ∧
          compute (Drawing.crossedPairs.rename ("the " ++ ·) fun _ => "")
            (Drawing.oneRing.rename ("the " ++ ·)) (fun _ => 1) = .ok l') ∧
        List.Forall₂ (Renamed ("the " ++ ·)) seen seen' ∧ Renamed ("the " ++ ·) l l' := by
  have hf : Function.Injective ("the " ++ ·) := fun a b h => by simpa using h
  refine ⟨hf, rfl, fun _ h => (by cases h), ?_⟩
  refine (shown_rename hf rfl _ _ fun _ h => by cases h).resolve_left ?_
  rintro ⟨err, -, ⟨-, herr⟩, -⟩
  rw [compute, Run.create, Drawing.build_crossedPairs] at herr
  cases herr

end Layout

end RingLayout
