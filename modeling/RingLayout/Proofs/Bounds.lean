import RingLayout.Proofs.Scalar.Real
import RingLayout.Proofs.AsBuilt
import RingLayout.Proofs.Extents

/-! # The bounds of groups

In exact arithmetic a layout shows every group that a drawn node names, with the smallest box around
its nodes and the hubs of their rings. A group is read off the drawn nodes alone: what it holds of
other groups does not count, and a group that holds nothing else is not shown.
-/

namespace RingLayout

namespace Box

/-- The box reaches as far as another one on every side. -/
structure Covers (b a : Box ℝ) : Prop where
  left_le : b.left ≤ a.left
  top_le : b.top ≤ a.top
  right_le : a.right ≤ b.right
  bottom_le : a.bottom ≤ b.bottom

/-- The box is the smallest one around some boxes. -/
structure Frames (b : Box ℝ) (boxes : Set (Box ℝ)) : Prop where
  left : IsLeast (Box.left '' boxes) b.left
  top : IsLeast (Box.top '' boxes) b.top
  right : IsGreatest (Box.right '' boxes) b.right
  bottom : IsGreatest (Box.bottom '' boxes) b.bottom

namespace Frames

variable {a b : Box ℝ} {boxes : Set (Box ℝ)}

theorem covers (h : b.Frames boxes) (ha : a ∈ boxes) : b.Covers a where
  left_le := h.left.2 ⟨a, ha, rfl⟩
  top_le := h.top.2 ⟨a, ha, rfl⟩
  right_le := h.right.2 ⟨a, ha, rfl⟩
  bottom_le := h.bottom.2 ⟨a, ha, rfl⟩

theorem unique (h : a.Frames boxes) (h' : b.Frames boxes) : a = b := by
  obtain ⟨left, top, width, height⟩ := a
  obtain ⟨left', top', width', height'⟩ := b
  obtain rfl : left = left' := h.left.unique h'.left
  obtain rfl : top = top' := h.top.unique h'.top
  have hright : left + width = left + width' := h.right.unique h'.right
  have hbottom : top + height = top + height' := h.bottom.unique h'.bottom
  rw [add_left_cancel hright, add_left_cancel hbottom]

theorem nonempty (h : b.Frames boxes) : boxes.Nonempty :=
  let ⟨a, ha, _⟩ := h.left.1
  ⟨a, ha⟩

end Frames

/-- The box of the sides of an extent. -/
theorem frames_of_bounds {e : Extent ℝ} {boxes : Set (Box ℝ)} (h : e.Bounds boxes) :
    (⟨e.minX, e.minY, e.width, e.height⟩ : Box ℝ).Frames boxes where
  left := h.minX
  top := h.minY
  right := by
    rw [Box.right, Extent.width, add_sub_cancel]
    exact h.maxX
  bottom := by
    rw [Box.bottom, Extent.height, add_sub_cancel]
    exact h.maxY

/-- A box is told by its center and its sides. -/
theorem centered_center (b : Box ℝ) : Box.centered b.center b.width b.height = b := by
  have hleft : b.center.x - b.width / 2.0 = b.left := add_sub_cancel_right _ _
  have htop : b.center.y - b.height / 2.0 = b.top := add_sub_cancel_right _ _
  rw [Box.centered, hleft, htop]

end Box

/-- The box that a drawn node has when its center is at a point. -/
def Node.boxAt {K : Type} [Scalar K] (n : Node K) (p : Point K) : Box K :=
  Box.centered p (Scalar.maxNum n.width 1.0) (Scalar.maxNum n.height 1.0)

/-- The boxes that a group holds in a drawing of a graph: those of its nodes, and those of the hubs
of the rings that they belong to. -/
inductive Graph.Holds {K : Type} [Scalar K] (g : Graph K) (clusters : List (List Nat))
    (d : Drawing K) (group : String) : Box K → Prop
  | node {v : Nat} {n : Node K} (hn : g.drawnNodes[v]? = some n) (hgroup : n.group = some group) :
      Holds g clusters d group (d.body v).box
  | hub {v c : Nat} {n : Node K} (hn : g.drawnNodes[v]? = some n) (hgroup : n.group = some group)
      (hc : Drawing.clusterOf? clusters v = some c) :
      Holds g clusters d group (d.body (d.ring c).hub).box

namespace Layout

theorem mem_sortById {α : Type} {entries : List (String × α)} {entry : String × α} :
    entry ∈ sortById entries ↔ entry ∈ entries :=
  (List.mergeSort_perm _ _).mem_iff

section Shown

variable {K : Type} [Scalar K] {r : Run K}

theorem mem_groupBounds_iff {group : String} {box : Box K} :
    (group, box) ∈ (ofRun r).groupBounds ↔
      group ∈ r.drawing.groups ∧ bounds? r.drawing group = some box := by
  rw [ofRun, mem_sortById, List.mem_filterMap]
  constructor
  · rintro ⟨p, hp, hbox⟩
    obtain ⟨b, hb, heq⟩ := Option.map_eq_some_iff.mp hbox
    obtain ⟨rfl, rfl⟩ := Prod.mk.inj heq
    exact ⟨hp, hb⟩
  · rintro ⟨hgroup, hbox⟩
    exact ⟨group, hgroup, by rw [hbox, Option.map_some]⟩

/-- No group is shown twice. -/
theorem nodup_groupBounds (h : r.drawing.groups.Nodup) :
    ((ofRun r).groupBounds.map Prod.fst).Nodup := by
  let entries := r.drawing.groups.filterMap fun group =>
    (bounds? r.drawing group).map fun box => (group, box)
  have hperm : (ofRun r).groupBounds.Perm entries := List.mergeSort_perm _ _
  refine (hperm.map Prod.fst).nodup_iff.mpr (h.sublist ?_)
  have hnames : ∀ groups : List String,
      ((groups.filterMap fun group => (bounds? r.drawing group).map fun box => (group, box)).map
        Prod.fst).Sublist groups := by
    intro groups
    induction groups with
    | nil => exact .slnil
    | cons group rest ih =>
        rw [List.filterMap_cons]
        cases bounds? r.drawing group with
        | none => exact ih.cons group
        | some box => exact ih.cons_cons group
  exact hnames _

end Shown

/-- Where the extent of a group is defined, it frames the group, and it is defined for all groups
that hold something. -/
theorem bounds?_eq_some_iff {d : Drawing ℝ} {group : String} {box : Box ℝ} :
    bounds? d group = some box ↔ box.Frames {b | b ∈ groupBoxes d group} := by
  have hframes : ∀ {b}, bounds? d group = some b → b.Frames {b | b ∈ groupBoxes d group} := by
    intro b hb
    obtain ⟨e, he, rfl⟩ := Option.map_eq_some_iff.mp hb
    exact Box.frames_of_bounds (Extent.bounds_cover? he)
  refine ⟨hframes, fun h => ?_⟩
  obtain ⟨b, hb⟩ := h.nonempty
  obtain ⟨e, he⟩ := Extent.exists_cover? (List.ne_nil_of_mem hb)
  have hsome : bounds? d group = some ⟨e.minX, e.minY, e.width, e.height⟩ := by
    rw [bounds?, he, Option.map_some]
  rw [hsome, (hframes hsome).unique h]

end Layout

namespace Drawing

variable {K : Type} [Scalar K] {g : Graph K} {o : Options K} {cs : List (List Nat)} {d : Drawing K}

/-- A built drawing is that of the clusters of its graph. -/
theorem build_eq_ok {built : Drawing K} (h : build g o = .ok built) :
    ∃ cs, clusters g o.clustering = .ok cs ∧ built = ofClusters g o cs := by
  obtain ⟨⟨⟩, -, h⟩ := bind_eq_ok h
  obtain ⟨cs, hcs, h⟩ := bind_eq_ok h
  cases h
  exact ⟨cs, hcs, rfl⟩

theorem groups_nodup {built : Drawing K} (h : build g o = .ok built) : built.groups.Nodup := by
  obtain ⟨⟨⟩, hvalid, h⟩ := bind_eq_ok h
  obtain ⟨cs, -, h⟩ := bind_eq_ok h
  cases h
  refine (g.validate_eq_ok_iff.mp hvalid).1.sublist ?_
  exact List.filter_sublist.map _

namespace AsBuilt

variable (h : AsBuilt (ofClusters g o cs) d)
include h

theorem nodeCount_le : d.nodeCount ≤ d.bodies.size := by
  rw [h.nodeCount_eq, h.bodyCount_eq]
  simp [ofClusters]

/-- A drawn node of the graph keeps its name, its group, its sides and its ring. -/
theorem node_eq {v : Nat} {n : Node K} (hn : g.drawnNodes[v]? = some n) :
    (d.body v).id = some n.id ∧ (d.body v).group = n.group ∧
      (d.body v).box.size = (n.boxAt (d.body v).center).size ∧
        (d.body v).role.ring? = clusterOf? cs v := by
  have hv : v < (ofClusters g o cs).nodeCount := (List.getElem?_eq_some_iff.mp hn).1
  have hbody : (ofClusters g o cs).body v = nodeBody n _ := body_ofClusters hn
  refine ⟨?_, ?_, ?_, ?_⟩
  · rw [h.id_eq v hv, hbody]
    rfl
  · rw [h.group_eq v hv, hbody]
    rfl
  · rw [Box.size, h.width_eq v hv, h.height_eq v hv, hbody]
    rfl
  · rw [h.ring?_eq v hv, ← ring?_wiring, ring?_ofClusters hv]

/-- The boxes read off for a group are those that it holds. -/
theorem mem_groupBoxes_iff {group : String} {box : Box K} :
    box ∈ Layout.groupBoxes d group ↔ g.Holds cs d group box := by
  have htake : d.bodies.toList.take d.nodeCount =
      (List.range g.drawnNodes.length).map d.body := by
    rw [toList_bodies, ← List.map_take, List.take_range, Nat.min_eq_left h.nodeCount_le,
      h.nodeCount_eq]
    rfl
  rw [Layout.groupBoxes, htake, List.flatMap_map, List.mem_flatMap]
  constructor
  · rintro ⟨v, hv, hbox⟩
    obtain ⟨n, hn⟩ : ∃ n, g.drawnNodes[v]? = some n :=
      ⟨_, List.getElem?_eq_getElem (List.mem_range.mp hv)⟩
    obtain ⟨-, hgroup, -, hring⟩ := h.node_eq hn
    rw [hgroup, hring] at hbox
    split at hbox
    next hmember =>
      split at hbox
      next c hc =>
        rcases List.mem_cons.mp hbox with rfl | hbox
        · exact .node hn hmember
        · rw [List.mem_singleton.mp hbox]
          exact .hub hn hmember hc
      next =>
        rw [List.mem_singleton.mp hbox]
        exact .node hn hmember
    next => cases hbox
  · have hmem : ∀ {v : Nat} {n : Node K}, g.drawnNodes[v]? = some n →
        v ∈ List.range g.drawnNodes.length :=
      fun hn => List.mem_range.mpr (List.getElem?_eq_some_iff.mp hn).1
    rintro (@⟨v, n, hn, hmember⟩ | @⟨v, c, n, hn, hmember, hc⟩)
    · obtain ⟨-, hgroup, -, -⟩ := h.node_eq hn
      refine ⟨v, hmem hn, ?_⟩
      rw [hgroup, if_pos hmember]
      split <;> exact List.mem_cons_self
    · obtain ⟨-, hgroup, -, hring⟩ := h.node_eq hn
      refine ⟨v, hmem hn, ?_⟩
      rw [hgroup, hring, if_pos hmember, hc]
      exact List.mem_cons_of_mem _ List.mem_cons_self

end AsBuilt

end Drawing

/-- The layout of a graph is that of the completed run. -/
theorem Layout.compute_of_build {K : Type} [Scalar K] {g : Graph K} {o : Options K}
    {d : Drawing K} (h : Drawing.build g o = .ok d) (clock : Clock) :
    compute g o clock =
      .ok (ofRun ((Run.ofDrawing d o).complete clock (fun _ _ => ()) ()).2) := by
  rw [compute, Run.create_of_build h]
  rfl

namespace Run

variable {g : Graph ℝ} {o : Options ℝ} {cs : List (List Nat)}

/-- What the layout of a state of a run shows of the groups of a graph with the given clusters. -/
structure ShowsGroups (g : Graph ℝ) (clusters : List (List Nat)) (r : Run ℝ) : Prop where
  /-- The nodes have their boxes where the layout shows them. -/
  node_eq : ∀ v n, g.drawnNodes[v]? = some n →
    ∃ p, (n.id, p) ∈ (Layout.ofRun r).positions ∧ (r.drawing.body v).box = n.boxAt p
  nodup : ((Layout.ofRun r).groupBounds.map Prod.fst).Nodup
  /-- Drawn nodes alone bring their group into the layout. -/
  mem_iff : ∀ group, group ∈ (Layout.ofRun r).groupBounds.map Prod.fst ↔
    group ∈ g.groupIds ∧ ∃ n ∈ g.drawnNodes, n.group = some group
  /-- The bounds are exactly those of the nodes of the group and the hubs of their rings. -/
  frames : ∀ group box, (group, box) ∈ (Layout.ofRun r).groupBounds →
    box.Frames {b | g.Holds clusters r.drawing group b}

theorem Intact.showsGroups {r : Run ℝ}
    (hbuild : Drawing.build g o = .ok (Drawing.ofClusters g o cs))
    (h : Intact g (Drawing.ofClusters g o cs) r) : ShowsGroups g cs r := by
  have hbuilt := h.asBuilt
  have hboxes : ∀ group, {b | b ∈ Layout.groupBoxes r.drawing group} =
      {b | g.Holds cs r.drawing group b} :=
    fun group => Set.ext fun b => hbuilt.mem_groupBoxes_iff
  have hgroups : r.drawing.groups = g.groupIds := hbuilt.groups_eq
  constructor
  case node_eq =>
    intro v n hn
    obtain ⟨hid, -, hsize, -⟩ := hbuilt.node_eq hn
    refine ⟨(r.drawing.body v).center, ?_, ?_⟩
    · rw [Layout.ofRun, Layout.mem_sortById, List.mem_filterMap]
      refine ⟨r.drawing.body v, ?_, by rw [hid, Option.map_some]⟩
      have hv : v < r.drawing.nodeCount := by
        rw [hbuilt.nodeCount_eq]
        exact (List.getElem?_eq_some_iff.mp hn).1
      rw [Drawing.toList_bodies, ← List.map_take, List.take_range,
        Nat.min_eq_left hbuilt.nodeCount_le]
      exact List.mem_map_of_mem (List.mem_range.mpr hv)
    · obtain ⟨hwidth, hheight⟩ := Prod.mk.inj hsize
      rw [← Box.centered_center (r.drawing.body v).box, hwidth, hheight]
      rfl
  case nodup =>
    refine Layout.nodup_groupBounds ?_
    rw [hbuilt.groups_eq]
    exact Drawing.groups_nodup hbuild
  case mem_iff =>
    intro group
    have hshown : group ∈ (Layout.ofRun r).groupBounds.map Prod.fst ↔
        group ∈ g.groupIds ∧ ∃ box, Layout.bounds? r.drawing group = some box := by
      rw [← hgroups, ← exists_and_left]
      simp only [← Layout.mem_groupBounds_iff]
      simp
    rw [hshown]
    refine and_congr_right fun _ => ⟨?_, ?_⟩
    · rintro ⟨box, hbox⟩
      obtain ⟨b, hb⟩ := (Layout.bounds?_eq_some_iff.mp hbox).nonempty
      rcases hbuilt.mem_groupBoxes_iff.mp hb with ⟨hn, hmember⟩ | ⟨hn, hmember, -⟩
      · exact ⟨_, List.mem_of_getElem? hn, hmember⟩
      · exact ⟨_, List.mem_of_getElem? hn, hmember⟩
    · rintro ⟨n, hn, hmember⟩
      obtain ⟨v, hv⟩ := List.mem_iff_getElem?.mp hn
      have hne : Layout.groupBoxes r.drawing group ≠ [] :=
        List.ne_nil_of_mem (hbuilt.mem_groupBoxes_iff.mpr (.node hv hmember))
      obtain ⟨e, he⟩ := Extent.exists_cover? hne
      exact ⟨_, by rw [Layout.bounds?, he, Option.map_some]⟩
  case frames =>
    intro group box hbox
    rw [← hboxes]
    exact Layout.bounds?_eq_some_iff.mp (Layout.mem_groupBounds_iff.mp hbox).2

theorem showsGroups_afterAll (hbuild : Drawing.build g o = .ok (Drawing.ofClusters g o cs))
    (calls : List Call) :
    ShowsGroups g cs ((ofDrawing (Drawing.ofClusters g o cs) o).afterAll calls) := by
  have hdescends := (descends_ofDrawing (Drawing.ofClusters g o cs) o).path
    (Drawing.sound_build hbuild) (path_afterAll _ calls)
  exact (hdescends.1.intact hbuild).showsGroups hbuild

theorem showsGroups_complete (hbuild : Drawing.build g o = .ok (Drawing.ofClusters g o cs))
    {σ : Type} (clock : Clock) (observe : σ → Run ℝ → σ) (seen : σ) :
    ShowsGroups g cs ((ofDrawing (Drawing.ofClusters g o cs) o).complete clock observe seen).2 := by
  obtain ⟨n, hn⟩ := complete_eq_afterAll clock observe seen
    (ofDrawing (Drawing.ofClusters g o cs) o)
  rw [hn]
  exact showsGroups_afterAll hbuild _

/-- What a run shows of the groups of its graph, in all states that a caller sees. -/
structure KeepsGroups (g : Graph ℝ) (clusters : List (List Nat)) (start : Run ℝ) : Prop where
  afterAll : ∀ calls, ShowsGroups g clusters (start.afterAll calls)
  complete : ∀ (σ : Type) (clock : Clock) (observe : σ → Run ℝ → σ) (seen : σ),
    ShowsGroups g clusters (start.complete clock observe seen).2

theorem keepsGroups {start : Run ℝ} (h : create g o = .ok start) :
    ∃ cs, Drawing.clusters g o.clustering = .ok cs ∧ KeepsGroups g cs start := by
  obtain ⟨built, hbuild, rfl⟩ := create_eq_ok h
  obtain ⟨cs, hcs, rfl⟩ := Drawing.build_eq_ok hbuild
  exact ⟨cs, hcs, showsGroups_afterAll hbuild,
    fun _ clock observe seen => showsGroups_complete hbuild clock observe seen⟩

theorem keepsGroups_partsAndLoners : ∃ start : Run ℝ,
    create Drawing.partsAndLoners Drawing.pairRing = .ok start ∧
      (∃ cs, Drawing.clusters Drawing.partsAndLoners Drawing.pairRing.clustering = .ok cs ∧
        KeepsGroups Drawing.partsAndLoners cs start) ∧
      ∀ calls, "h" ∈ (Layout.ofRun (start.afterAll calls)).groupBounds.map Prod.fst := by
  obtain ⟨cs, hcs, hkeeps⟩ := keepsGroups create_partsAndLoners
  refine ⟨_, create_partsAndLoners, ⟨cs, hcs, hkeeps⟩, fun calls => ?_⟩
  refine ((hkeeps.afterAll calls).mem_iff "h").mpr ⟨?_, ?_⟩
  · simp [Graph.groupIds, Drawing.partsAndLoners]
  · refine ⟨⟨"f", 60.0, 20.0, none, some "h", false⟩, ?_, rfl⟩
    simp [Graph.drawnNodes, Drawing.partsAndLoners]

end Run

/-- Groups are nested without cycles, and a group that holds no other group holds a drawn node. -/
structure Graph.WellNested {K : Type} (g : Graph K) : Prop where
  acyclic : ∃ depth : String → Nat, ∀ n ∈ g.nodes, ∀ group, n.group = some group →
    depth group < depth n.id
  innermost : ∀ group ∈ g.groupIds, (∀ n ∈ g.nodes, n.group = some group → n.isGroup = false) →
    ∃ n ∈ g.drawnNodes, n.group = some group

namespace Drawing

/-- A group in a group, and a node in the inner one. -/
noncomputable def nestedGroups : Graph ℝ where
  nodes := [⟨"outer", 0.0, 0.0, none, none, true⟩, ⟨"inner", 0.0, 0.0, none, some "outer", true⟩,
    ⟨"a", 30.0, 20.0, none, some "inner", false⟩]
  edges := []

theorem build_nestedGroups : build nestedGroups Options.defaults =
    .ok (ofClusters nestedGroups Options.defaults []) := rfl

theorem wellNested_nestedGroups : nestedGroups.WellNested where
  acyclic := by
    refine ⟨fun id => if id = "outer" then 0 else if id = "inner" then 1 else 2, ?_⟩
    simp [nestedGroups]
  innermost := by
    simp [nestedGroups, Graph.groupIds, Graph.drawnNodes]

end Drawing

/-- A group that holds another group, and nothing else, is not shown, not even where that one is. -/
theorem Layout.not_shown_nestedGroups : ¬∀ (g : Graph ℝ) (o : Options ℝ) (clock : Clock)
    (l : Layout ℝ), g.WellNested → Layout.compute g o clock = .ok l →
      ∀ group ∈ g.groupIds, (∃ n ∈ g.nodes, n.group = some group) →
        ∃ box, (group, box) ∈ l.groupBounds := by
  intro hall
  have hbuild := Drawing.build_nestedGroups
  have hshows := Run.showsGroups_complete hbuild (fun _ => 0) (fun _ _ => ()) ()
  have hcompute := compute_of_build hbuild fun _ => 0
  have houter : "outer" ∈ Drawing.nestedGroups.groupIds := by
    simp [Drawing.nestedGroups, Graph.groupIds]
  obtain ⟨box, hbox⟩ := hall _ _ _ _ Drawing.wellNested_nestedGroups hcompute "outer" houter
    ⟨_, List.mem_cons_of_mem _ List.mem_cons_self, rfl⟩
  -- the one drawn node is in the inner group
  obtain ⟨-, n, hn, hgroup⟩ := (hshows.mem_iff "outer").mp (List.mem_map_of_mem hbox)
  have hdrawn : n = ⟨"a", 30.0, 20.0, none, some "inner", false⟩ := by
    simpa [Drawing.nestedGroups, Graph.drawnNodes] using hn
  rw [hdrawn] at hgroup
  simp at hgroup

end RingLayout
