import RingLayout.Proofs.Bounds
import RingLayout.Proofs.Circles

/-! # Drafts that move nothing

A draft without randomization shows every node at the position that it was given, whatever is asked
of the run. The rings of such a draft are not laid out, and their hubs stay as they were built. So
the bounds of a group are those of its nodes at the given positions, but where one of them is on a
ring they take the hub of the ring in as well, which is a unit square at the origin.
-/

namespace RingLayout

/-- The point at which a node is to start. -/
def Node.start {K : Type} [Scalar K] (n : Node K) : Point K := n.position.getD .origin

/-- The box of a node where it is to start. -/
def Node.startBox {K : Type} [Scalar K] (n : Node K) : Box K := n.boxAt n.start

namespace Run

variable {K : Type} [Scalar K] {g : Graph K} {o : Options K} {d : Drawing K} {r : Run K}

/-! ## Runs at rest -/

/-- A run with a draft for its quality that has not moved anything and is not going to. -/
structure AtRest (d : Drawing K) (r : Run K) : Prop where
  drawing_eq : r.drawing = d
  quality_eq : r.options.quality = .draft
  randomize_eq : r.options.randomize = false
  stage_ne : r.stage ≠ .simulating
  keeps : r.stage ≠ .created → r.keepsPositions = true

namespace AtRest

variable (h : AtRest d r)
include h

theorem prerun : AtRest d r.prerun := by
  by_cases hstage : r.stage = .created
  · have hkeep : (r.options.quality = .draft && !r.options.randomize) = true := by
      simp [h.quality_eq, h.randomize_eq]
    rw [prerun_eq, if_neg (not_not_intro hstage), if_pos hkeep]
    exact ⟨h.drawing_eq, h.quality_eq, h.randomize_eq, Stage.noConfusion, fun _ => rfl⟩
  · rwa [prerun_of_ne hstage]

theorem postrun : AtRest d r.postrun := by
  rw [postrun_eq]
  split
  next => exact h
  next hstage =>
    rw [if_pos (h.keeps (not_or.mp hstage).1)]
    exact ⟨h.drawing_eq, h.quality_eq, h.randomize_eq, Stage.noConfusion,
      fun _ => h.keeps (not_or.mp hstage).1⟩

theorem after (c : Call) : AtRest d (r.after c) := by
  cases c with
  | prerun => exact h.prerun
  | postrun => exact h.postrun
  | tick clock =>
      -- nothing is simulated
      simp only [Run.after, tick, if_neg h.prerun.stage_ne]
      exact h.prerun

theorem afterAll (calls : List Call) : AtRest d (r.afterAll calls) := by
  induction calls generalizing r with
  | nil => exact h
  | cons c cs ih => exact ih (h.after c)

end AtRest

theorem atRest_ofDrawing (hdraft : o.quality = .draft) (hkeep : o.randomize = false) :
    AtRest d (ofDrawing d o) :=
  ⟨rfl, hdraft, hkeep, Stage.noConfusion, fun hcreated => absurd rfl hcreated⟩

end Run

namespace Drawing

variable {g : Graph ℝ} {o : Options ℝ} {cs : List (List Nat)}

/-- The hub of a new ring is a unit square at the origin. -/
theorem box_hub_ofClusters {c : Nat} (hc : c < cs.length) :
    ((ofClusters g o cs).body ((ofClusters g o cs).ring c).hub).box =
      Box.centered .origin 1.0 1.0 := by
  have hhub : ((ofClusters g o cs).ring c).hub = g.drawnNodes.length + c := hub_ofClusters hc
  rw [hhub]
  simp only [body, ofClusters, Array.getD_eq_getD_getElem?, Array.getElem?_append,
    List.size_toArray, List.length_map, List.length_zipIdx, List.getElem?_toArray,
    Nat.not_lt.mpr (Nat.le_add_right _ c), if_false, Nat.add_sub_cancel_left, List.getElem?_map,
    List.getElem?_zipIdx, List.getElem?_eq_getElem hc, Option.map_some, Option.getD_some]
  rfl

theorem box_ofClusters {v : Nat} {n : Node ℝ} (hn : g.drawnNodes[v]? = some n) :
    ((ofClusters g o cs).body v).box = n.startBox := by
  rw [body_ofClusters hn]
  rfl

/-- The nodes of a new drawing are shown where they are to start. -/
theorem positions_ofClusters :
    ((ofClusters g o cs).bodies.toList.take (ofClusters g o cs).nodeCount).filterMap
        (fun b => b.id.map fun id => (id, b.center)) =
      g.drawnNodes.map fun n => (n.id, n.start) := by
  have htake : (ofClusters g o cs).bodies.toList.take (ofClusters g o cs).nodeCount =
      g.drawnNodes.zipIdx.map fun p => nodeBody p.1 (roleOf cs (newLinks g o cs) p.2) := by
    have hcount : (ofClusters g o cs).nodeCount = (g.drawnNodes.zipIdx.map fun p =>
        nodeBody p.1 (roleOf cs (newLinks g o cs) p.2)).length := by
      rw [List.length_map, List.length_zipIdx]
      rfl
    obtain ⟨hubs, hhubs⟩ : ∃ hubs, (ofClusters g o cs).bodies.toList =
        (g.drawnNodes.zipIdx.map fun p => nodeBody p.1 (roleOf cs (newLinks g o cs) p.2)) ++ hubs :=
      ⟨_, Array.toList_append⟩
    rw [hhubs, hcount, List.take_left]
  have hshown : ∀ (n : Node ℝ) role, (nodeBody n role).id.map
      (fun id => (id, (nodeBody n role).center)) = some (n.id, n.start) := by
    intro n role
    exact congrArg (fun p => some (n.id, p)) (Box.center_centered n.start _ _)
  rw [htake, List.filterMap_map]
  calc g.drawnNodes.zipIdx.filterMap _
      = g.drawnNodes.zipIdx.filterMap (some ∘ fun p => (p.1.id, p.1.start)) :=
        List.filterMap_congr fun p _ => hshown p.1 _
    _ = (g.drawnNodes.zipIdx.map Prod.fst).map fun n => (n.id, n.start) := by
        rw [List.filterMap_eq_map, List.map_map]
        rfl
    _ = g.drawnNodes.map fun n => (n.id, n.start) := by
        rw [List.zipIdx_map_fst]

end Drawing

/-- The boxes that a group holds while nothing has moved: those of its nodes where they are to
start and, if one of them is on a ring, that of a hub that was never fitted. -/
inductive Graph.HoldsAtStart (g : Graph ℝ) (clusters : List (List Nat)) (group : String) :
    Box ℝ → Prop
  | node {n : Node ℝ} (hn : n ∈ g.drawnNodes) (hgroup : n.group = some group) :
      HoldsAtStart g clusters group n.startBox
  | hub {v : Nat} {n : Node ℝ} (hn : g.drawnNodes[v]? = some n) (hgroup : n.group = some group)
      (hv : v ∈ clusters.flatten) : HoldsAtStart g clusters group (Box.centered .origin 1.0 1.0)

/-- A new drawing holds what the graph gives. -/
theorem Graph.holds_ofClusters_iff {g : Graph ℝ} {o : Options ℝ} {cs : List (List Nat)}
    {group : String} {b : Box ℝ} :
    g.Holds cs (Drawing.ofClusters g o cs) group b ↔ g.HoldsAtStart cs group b := by
  constructor
  · rintro (⟨hn, hgroup⟩ | @⟨v, c, n, hn, hgroup, hc⟩)
    · rw [Drawing.box_ofClusters hn]
      exact .node (List.mem_of_getElem? hn) hgroup
    · rw [Drawing.box_hub_ofClusters (List.findIdx?_eq_some_iff_getElem.mp hc).1]
      exact .hub hn hgroup (Drawing.clusterOf?_isSome_iff.mp (hc ▸ rfl))
  · rintro (@⟨n, hn, hgroup⟩ | @⟨v, n, hn, hgroup, hv⟩)
    · obtain ⟨v, hv⟩ := List.mem_iff_getElem?.mp hn
      have hbox : ((Drawing.ofClusters g o cs).body v).box = n.startBox := Drawing.box_ofClusters hv
      rw [← hbox]
      exact .node hv hgroup
    · obtain ⟨c, hc⟩ := Option.isSome_iff_exists.mp (Drawing.clusterOf?_isSome_iff.mpr hv)
      rw [← Drawing.box_hub_ofClusters (g := g) (o := o)
        (List.findIdx?_eq_some_iff_getElem.mp hc).1]
      exact .hub hn hgroup hc

namespace Run

variable {g : Graph ℝ} {o : Options ℝ} {cs : List (List Nat)}

/-- What a layout shows of a graph while nothing has moved. -/
structure ShowsStart (g : Graph ℝ) (clusters : List (List Nat)) (l : Layout ℝ) : Prop where
  positions_eq : l.positions = Layout.sortById (g.drawnNodes.map fun n => (n.id, n.start))
  mem_iff : ∀ group, group ∈ l.groupBounds.map Prod.fst ↔
    group ∈ g.groupIds ∧ ∃ n ∈ g.drawnNodes, n.group = some group
  frames : ∀ group box, (group, box) ∈ l.groupBounds →
    box.Frames {b | g.HoldsAtStart clusters group b}
  /-- The bounds of a group with no node on a ring are those of its nodes alone. -/
  frames_nodes : ∀ group box, (group, box) ∈ l.groupBounds →
    (∀ v ∈ clusters.flatten, ∀ n, g.drawnNodes[v]? = some n → n.group ≠ some group) →
      box.Frames (Node.startBox '' {n | n ∈ g.drawnNodes ∧ n.group = some group})

theorem AtRest.showsStart {r : Run ℝ} (h : AtRest (Drawing.ofClusters g o cs) r)
    (hshows : ShowsGroups g cs r) : ShowsStart g cs (Layout.ofRun r) := by
  have hframes : ∀ group box, (group, box) ∈ (Layout.ofRun r).groupBounds →
      box.Frames {b | g.HoldsAtStart cs group b} := by
    intro group box hbox
    have hset : {b | g.Holds cs r.drawing group b} = {b | g.HoldsAtStart cs group b} := by
      rw [h.drawing_eq]
      exact Set.ext fun b => Graph.holds_ofClusters_iff
    exact hset ▸ hshows.frames group box hbox
  constructor
  case positions_eq =>
    rw [Layout.ofRun, h.drawing_eq]
    exact congrArg Layout.sortById Drawing.positions_ofClusters
  case mem_iff => exact hshows.mem_iff
  case frames => exact hframes
  case frames_nodes =>
    intro group box hbox hloose
    have hset : {b | g.HoldsAtStart cs group b} =
        Node.startBox '' {n | n ∈ g.drawnNodes ∧ n.group = some group} := by
      ext b
      constructor
      · rintro (@⟨n, hn, hgroup⟩ | @⟨v, n, hn, hgroup, hv⟩)
        · exact ⟨n, ⟨hn, hgroup⟩, rfl⟩
        · exact absurd hgroup (hloose v hv n hn)
      · rintro ⟨n, ⟨hn, hgroup⟩, rfl⟩
        exact .node hn hgroup
    exact hset ▸ hframes group box hbox

theorem showsStart_afterAll (hbuild : Drawing.build g o = .ok (Drawing.ofClusters g o cs))
    (hdraft : o.quality = .draft) (hkeep : o.randomize = false) (calls : List Call) :
    ShowsStart g cs
      (Layout.ofRun ((ofDrawing (Drawing.ofClusters g o cs) o).afterAll calls)) :=
  ((atRest_ofDrawing hdraft hkeep).afterAll calls).showsStart (showsGroups_afterAll hbuild calls)

/-- What a draft that keeps the given positions shows of its graph, in all states that a caller
sees. -/
structure KeepsStart (g : Graph ℝ) (clusters : List (List Nat)) (start : Run ℝ) : Prop where
  drawing_eq : ∀ calls, (start.afterAll calls).drawing = start.drawing
  afterAll : ∀ calls, ShowsStart g clusters (Layout.ofRun (start.afterAll calls))
  complete : ∀ (σ : Type) (clock : Clock) (observe : σ → Run ℝ → σ) (seen : σ),
    ShowsStart g clusters (Layout.ofRun (start.complete clock observe seen).2)

theorem keepsStart {start : Run ℝ} (h : create g o = .ok start) (hdraft : o.quality = .draft)
    (hkeep : o.randomize = false) :
    ∃ cs, Drawing.clusters g o.clustering = .ok cs ∧ KeepsStart g cs start := by
  obtain ⟨built, hbuild, rfl⟩ := create_eq_ok h
  obtain ⟨cs, hcs, rfl⟩ := Drawing.build_eq_ok hbuild
  refine ⟨cs, hcs, ?_, showsStart_afterAll hbuild hdraft hkeep, ?_⟩
  · exact fun calls => ((atRest_ofDrawing hdraft hkeep).afterAll calls).drawing_eq
  · intro σ clock observe seen
    obtain ⟨n, hn⟩ := complete_eq_afterAll clock observe seen
      (ofDrawing (Drawing.ofClusters g o cs) o)
    rw [hn]
    exact showsStart_afterAll hbuild hdraft hkeep _

end Run

namespace Drawing

/-- A node in a group, with a position. -/
noncomputable def groupedNode : Graph ℝ where
  nodes := [⟨"p", 0.0, 0.0, none, none, true⟩,
    ⟨"a", 30.0, 20.0, some ⟨100.0, 100.0⟩, some "p", false⟩]
  edges := []

/-- A draft that keeps the given positions, with the node on a ring of its own. -/
noncomputable def keptDraft : Options ℝ :=
  { (Options.defaults : Options ℝ) with
    quality := .draft, randomize := false, clustering := .cells [["a"]] }

theorem build_groupedNode :
    build groupedNode keptDraft = .ok (ofClusters groupedNode keptDraft [[0]]) := rfl

/-- A node on a ring and one on none, in different groups. -/
noncomputable def twoGroups : Graph ℝ where
  nodes := [⟨"p", 0.0, 0.0, none, none, true⟩, ⟨"q", 0.0, 0.0, none, none, true⟩,
    ⟨"a", 30.0, 20.0, some ⟨100.0, 100.0⟩, some "p", false⟩,
    ⟨"b", 40.0, 10.0, some ⟨200.0, 50.0⟩, some "q", false⟩]
  edges := []

theorem build_twoGroups :
    build twoGroups keptDraft = .ok (ofClusters twoGroups keptDraft [[0]]) := rfl

theorem drawnNodes_twoGroups : twoGroups.drawnNodes =
    [⟨"a", 30.0, 20.0, some ⟨100.0, 100.0⟩, some "p", false⟩,
      ⟨"b", 40.0, 10.0, some ⟨200.0, 50.0⟩, some "q", false⟩] := by
  simp [Graph.drawnNodes, twoGroups]

theorem startBox_twoGroups :
    Node.startBox '' {n | n ∈ twoGroups.drawnNodes ∧ n.group = some "q"} =
      {Box.centered ⟨200.0, 50.0⟩ 40.0 10.0} := by
  have honly : {n | n ∈ twoGroups.drawnNodes ∧ n.group = some "q"} =
      {⟨"b", 40.0, 10.0, some ⟨200.0, 50.0⟩, some "q", false⟩} := by
    ext n
    rw [Set.mem_ofPred_eq, drawnNodes_twoGroups, List.mem_pair, Set.mem_singleton_iff]
    constructor
    · rintro ⟨rfl | rfl, hgroup⟩
      · exact absurd hgroup (by decide)
      · rfl
    · rintro rfl
      exact ⟨Or.inr rfl, rfl⟩
  have hbox : Node.startBox (⟨"b", 40.0, 10.0, some ⟨200.0, 50.0⟩, some "q", false⟩ : Node ℝ) =
      Box.centered ⟨200.0, 50.0⟩ 40.0 10.0 := by
    norm_num [Node.startBox, Node.start, Node.boxAt, Scalar.maxNum_real]
  rw [honly, Set.image_singleton, hbox]

end Drawing

namespace Run

/-- The bounds of the group with no node on a ring are those of its node. -/
theorem keepsStart_twoGroups : ∃ start : Run ℝ,
    create Drawing.twoGroups Drawing.keptDraft = .ok start ∧
      Drawing.keptDraft.quality = .draft ∧ Drawing.keptDraft.randomize = false ∧
        ∃ cs, Drawing.clusters Drawing.twoGroups Drawing.keptDraft.clustering = .ok cs ∧
          KeepsStart Drawing.twoGroups cs start ∧
            ∃ box, ("q", box) ∈ (Layout.ofRun (start.afterAll [.prerun])).groupBounds ∧
              box.Frames {Box.centered ⟨200.0, 50.0⟩ 40.0 10.0} := by
  have hcreate := create_of_build Drawing.build_twoGroups
  obtain ⟨cs, hcs, hkeeps⟩ := keepsStart hcreate rfl rfl
  obtain rfl : cs = [[0]] := Except.ok.inj (hcs.symm.trans rfl)
  have hshows := hkeeps.afterAll [.prerun]
  obtain ⟨⟨_, box⟩, hbox, rfl⟩ := List.mem_map.mp ((hshows.mem_iff "q").mpr
    ⟨by simp [Graph.groupIds, Drawing.twoGroups], _,
      Drawing.drawnNodes_twoGroups ▸ List.mem_cons_of_mem _ List.mem_cons_self, rfl⟩)
  have hloose : ∀ v ∈ [[0]].flatten, ∀ n, Drawing.twoGroups.drawnNodes[v]? = some n →
      n.group ≠ some "q" := by
    intro v hv n hn
    obtain rfl : v = 0 := List.mem_singleton.mp hv
    rw [Drawing.drawnNodes_twoGroups] at hn
    obtain rfl := Option.some.inj hn
    decide
  refine ⟨_, hcreate, rfl, rfl, _, hcs, hkeeps, box, hbox, ?_⟩
  rw [← Drawing.startBox_twoGroups]
  exact hshows.frames_nodes "q" box hbox hloose

/-- A node on a ring draws the bounds of its group to the origin, away from where the node is. -/
theorem not_framed_groupedNode : ¬∀ (g : Graph ℝ) (o : Options ℝ) (start : Run ℝ)
    (calls : List Call), create g o = .ok start → o.quality = .draft → o.randomize = false →
      ∀ group box, (group, box) ∈ (Layout.ofRun (start.afterAll calls)).groupBounds →
        box.Frames (Node.startBox '' {n | n ∈ g.drawnNodes ∧ n.group = some group}) := by
  intro hall
  have hbuild := Drawing.build_groupedNode
  have hshows := showsStart_afterAll hbuild rfl rfl []
  have hdrawn : Drawing.groupedNode.drawnNodes =
      [⟨"a", 30.0, 20.0, some ⟨100.0, 100.0⟩, some "p", false⟩] := by
    simp [Graph.drawnNodes, Drawing.groupedNode]
  obtain ⟨⟨_, box⟩, hbox, rfl⟩ := List.mem_map.mp ((hshows.mem_iff "p").mpr
    ⟨by simp [Graph.groupIds, Drawing.groupedNode], _, hdrawn ▸ List.mem_cons_self, rfl⟩)
  have hleft : box.left = 85 := by
    obtain ⟨_, ⟨n, ⟨hn, -⟩, rfl⟩, hleft⟩ :=
      (hall _ _ _ [] (create_of_build hbuild) rfl rfl "p" box hbox).left.1
    rw [hdrawn, List.mem_singleton] at hn
    subst hn
    rw [← hleft]
    norm_num [Node.startBox, Node.start, Node.boxAt, Box.centered, Scalar.maxNum_real]
  have hhub : Drawing.groupedNode.HoldsAtStart [[0]] "p" (Box.centered .origin 1.0 1.0) :=
    .hub (v := 0) (by rw [hdrawn]; rfl) rfl (by simp)
  have hle := ((hshows.frames "p" box hbox).covers hhub).left_le
  norm_num [hleft, Box.centered, Point.origin] at hle

end Run

end RingLayout
