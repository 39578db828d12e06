import RingLayout.Layout
import RingLayout.Proofs.Links.Views
import RingLayout.Proofs.Motions.Course

/-! # What a run leaves as it was built

A run moves bodies, reorders rings and takes members off them. The nodes themselves, their links,
the rings that they belong to and the lists of roots and tiles stay as they were built, in every
state of the run and whatever it does. So a layout shows every drawn node once.
-/

namespace RingLayout

variable {K : Type} [Scalar K]

namespace Drawing

/-- What a drawing has kept of the drawing that was built. -/
structure AsBuilt (built d : Drawing K) : Prop where
  bodyCount_eq : d.bodies.size = built.bodies.size
  nodeCount_eq : d.nodeCount = built.nodeCount
  id_eq : ∀ v < built.nodeCount, (d.body v).id = (built.body v).id
  group_eq : ∀ v < built.nodeCount, (d.body v).group = (built.body v).group
  width_eq : ∀ v < built.nodeCount, (d.body v).box.width = (built.body v).box.width
  height_eq : ∀ v < built.nodeCount, (d.body v).box.height = (built.body v).box.height
  /-- Members stay with their ring when they go inside. -/
  ring?_eq : ∀ v < built.nodeCount, (d.body v).role.ring? = (built.body v).role.ring?
  linkCount_eq : d.links.size = built.links.size
  ends_eq : ∀ e, ((d.link e).source, (d.link e).target) =
    ((built.link e).source, (built.link e).target)
  linkRing_eq : ∀ e, (d.link e).ring = (built.link e).ring
  isInner_eq : ∀ e, (d.link e).isInner = (built.link e).isInner
  adjacency_eq : d.adjacency = built.adjacency
  tiled_eq : d.tiled = built.tiled
  groups_eq : d.groups = built.groups
  roots_eq : d.roots = built.roots
  ringCount_eq : d.rings.size = built.rings.size
  hub_eq : ∀ c, (d.ring c).hub = (built.ring c).hub
  innerLinks_eq : ∀ c, (d.ring c).innerLinks = (built.ring c).innerLinks
  outerLinks_eq : ∀ c, (d.ring c).outerLinks = (built.ring c).outerLinks
  /-- A member that is still on its ring shows the links that it was built with. -/
  seat_links : ∀ v s, (d.body v).seat? = some s → ∃ s', (built.body v).seat? = some s' ∧
    s.innerLinks = s'.innerLinks ∧ s.outerLinks = s'.outerLinks

variable {members : Nat → List Nat} {built d d' : Drawing K}

omit [Scalar K] in
theorem links?_place (b : Body K) :
    b.role.place.links? = b.seat?.map fun s => (s.innerLinks, s.outerLinks) := by
  unfold Body.seat?
  cases b.role <;> rfl

/-- A member that is still on its ring has the links that its seat was built with. -/
theorem seat_links_of_evolves (h : Skeleton.Evolves members built.skeleton d.skeleton) {v : Nat}
    {s : Seat K} (hs : (d.body v).seat? = some s) : ∃ s', (built.body v).seat? = some s' ∧
      s.innerLinks = s'.innerLinks ∧ s.outerLinks = s'.outerLinks := by
  have hlinks : (built.skeleton.place v).links? = some (s.innerLinks, s.outerLinks) := by
    apply h.links
    change (d.body v).role.place.links? = _
    rw [links?_place, hs]
    rfl
  change (built.body v).role.place.links? = _ at hlinks
  rw [links?_place, Option.map_eq_some_iff] at hlinks
  obtain ⟨s', hs', heq⟩ := hlinks
  exact ⟨s', hs', (congrArg Prod.fst heq).symm, (congrArg Prod.snd heq).symm⟩

/-- A drawing with the plan of another one, and nodes of the same sizes, is built like it. -/
theorem asBuilt_of_evolves (h : Skeleton.Evolves members built.skeleton d.skeleton)
    (hsize : ∀ v < built.nodeCount, (d.body v).box.size = (built.body v).box.size) :
    AsBuilt built d := by
  have hplan : d.skeleton.plan = built.skeleton.plan := h.plan_eq
  have hlink : ∀ e, (d.link e).shape = (built.link e).shape :=
    congrFun (congrArg Plan.link hplan)
  constructor
  case bodyCount_eq => exact congrArg Plan.bodyCount hplan
  case nodeCount_eq => exact congrArg Plan.nodeCount hplan
  case id_eq => exact fun v _ => congrFun (congrArg Plan.id hplan) v
  case group_eq => exact fun v _ => congrFun (congrArg Plan.group hplan) v
  case width_eq => exact fun v hv => congrArg Prod.fst (hsize v hv)
  case height_eq => exact fun v hv => congrArg Prod.snd (hsize v hv)
  case ring?_eq =>
    intro v _
    rw [← ring?_wiring, ← ring?_wiring, h.wiring_eq]
  case linkCount_eq => exact congrArg Plan.linkCount hplan
  case ends_eq => exact fun e => congrArg (fun l => (l.source, l.target)) (hlink e)
  case linkRing_eq => exact fun e => congrArg LinkShape.ring (hlink e)
  case isInner_eq => exact fun e => congrArg (fun l => l.ring.isSome) (hlink e)
  case adjacency_eq => exact congrArg Plan.adjacency hplan
  case tiled_eq => exact congrArg Plan.tiled hplan
  case groups_eq => exact congrArg Plan.groups hplan
  case roots_eq => exact congrArg Plan.roots hplan
  case ringCount_eq => exact congrArg Plan.ringCount hplan
  case hub_eq => exact congrFun (congrArg Plan.hub hplan)
  case innerLinks_eq => exact congrFun (congrArg Plan.innerLinks hplan)
  case outerLinks_eq => exact congrFun (congrArg Plan.outerLinks hplan)
  case seat_links => exact fun v s => seat_links_of_evolves h

/-- The hubs of a new drawing come after its nodes. -/
theorem nodeCount_le_of_mem_hubs {g : Graph K} {o : Options K} (h : build g o = .ok built) {v : Nat}
    (hv : v ∈ built.skeleton.plan.hubs) : built.nodeCount ≤ v := by
  obtain ⟨⟨⟩, -, h⟩ := bind_eq_ok h
  obtain ⟨cs, -, h⟩ := bind_eq_ok h
  cases h
  obtain ⟨c, hc, rfl⟩ := List.mem_map.mp hv
  have hc : c < cs.length := by
    have hcount : (ofClusters g o cs).skeleton.ringCount = cs.length := by simp [skeleton, ofClusters]
    rw [← hcount]
    exact List.mem_range.mp hc
  have hhub : (ofClusters g o cs).skeleton.plan.hub c = g.drawnNodes.length + c :=
    hub_ofClusters hc
  rw [hhub]
  exact Nat.le_add_right _ _

/-- Whatever becomes of a new drawing in a run, it is still as it was built. -/
theorem asBuilt_of_course {g : Graph K} {o : Options K} (h : build g o = .ok built)
    (hcourse : Run.Course Run.Moves built d) : AsBuilt built d := by
  have hsound := sound_build h
  refine asBuilt_of_evolves (hcourse.evolves hsound) fun v hv => ?_
  rcases hcourse.resizes hsound v with hsame | ⟨hhub, -⟩
  · exact hsame
  · exact absurd (nodeCount_le_of_mem_hubs h hhub) (Nat.not_le_of_lt hv)

/-! ## Links and seats -/

/-- The seats of a drawing list the links that end there, and inner links stay within a ring. -/
structure LinksListed (d : Drawing K) : Prop where
  source_ne_target : ∀ e < d.links.size, (d.link e).source ≠ (d.link e).target
  ring?_eq_of_isInner : ∀ e < d.links.size, (d.link e).isInner = true →
    (d.body (d.link e).source).role.ring? = (d.body (d.link e).target).role.ring?
  mem_innerLinks_iff : ∀ v s, (d.body v).seat? = some s → ∀ e, e ∈ s.innerLinks ↔
    e < d.links.size ∧ (d.link e).Touches v ∧ (d.link e).isInner = true
  mem_outerLinks_iff : ∀ v s, (d.body v).seat? = some s → ∀ e, e ∈ s.outerLinks ↔
    e < d.links.size ∧ (d.link e).Touches v ∧ (d.link e).isInner = false

theorem exists_getElem?_links_iff {e : Nat} {P : Link K → Prop} :
    (∃ l, d.links[e]? = some l ∧ P l) ↔ e < d.links.size ∧ P (d.link e) := by
  constructor
  · rintro ⟨l, hl, hP⟩
    obtain ⟨he, rfl⟩ := Array.getElem?_eq_some_iff.mp hl
    refine ⟨he, ?_⟩
    rwa [link, Array.getD_eq_getD_getElem?, hl]
  · rintro ⟨he, hP⟩
    exact ⟨d.link e, by simp [link, he], hP⟩

/-- A drawing is built with its seats and links in accord. -/
theorem linksListed_build {g : Graph K} {o : Options K} (h : build g o = .ok d) : LinksListed d := by
  obtain ⟨cs, -, hviews⟩ := linkViews_build h
  have hmem : ∀ e < d.links.size, d.link e ∈ d.links := fun e he => by simp [link, he]
  constructor
  case source_ne_target => exact fun e he => (hviews.ends_lt _ (hmem e he)).1
  case ring?_eq_of_isInner =>
    intro e he hinner
    obtain ⟨c, hc⟩ := Option.isSome_iff_exists.mp hinner
    obtain ⟨hsource, htarget⟩ := (hviews.ring_eq_iff _ (hmem e he) c).mp hc
    rw [ring?_of_mem_order (sound_build h) hsource, ring?_of_mem_order (sound_build h) htarget]
  case mem_innerLinks_iff =>
    exact fun v s hs e => ((hviews.seat_innerLinks v s hs).mem_iff e).trans
      exists_getElem?_links_iff
  case mem_outerLinks_iff =>
    exact fun v s hs e => ((hviews.seat_outerLinks v s hs).mem_iff e).trans
      exists_getElem?_links_iff

/-- Whoever is still on a ring has its links. -/
theorem LinksListed.of_evolves (h : LinksListed d)
    (hevolves : Skeleton.Evolves members d.skeleton d'.skeleton) : LinksListed d' := by
  have hcount : d'.links.size = d.links.size := congrArg Plan.linkCount hevolves.plan_eq
  have hshape : ∀ e, (d'.link e).shape = (d.link e).shape :=
    congrFun (congrArg Plan.link hevolves.plan_eq)
  have hsource : ∀ e, (d'.link e).source = (d.link e).source :=
    fun e => congrArg LinkShape.source (hshape e)
  have htarget : ∀ e, (d'.link e).target = (d.link e).target :=
    fun e => congrArg LinkShape.target (hshape e)
  have hinner : ∀ e, (d'.link e).isInner = (d.link e).isInner :=
    fun e => congrArg (fun l => l.ring.isSome) (hshape e)
  have hring : ∀ v, (d'.body v).role.ring? = (d.body v).role.ring? := by
    intro v
    rw [← ring?_wiring, ← ring?_wiring, hevolves.wiring_eq]
  constructor
  case source_ne_target => simpa only [hcount, hsource, htarget] using h.source_ne_target
  case ring?_eq_of_isInner =>
    simpa only [hcount, hsource, htarget, hinner, hring] using h.ring?_eq_of_isInner
  case mem_innerLinks_iff =>
    intro v s hs e
    obtain ⟨s', hs', heq, -⟩ := seat_links_of_evolves hevolves hs
    simpa only [heq, hcount, Link.Touches, hsource, htarget, hinner] using
      h.mem_innerLinks_iff v s' hs' e
  case mem_outerLinks_iff =>
    intro v s hs e
    obtain ⟨s', hs', -, heq⟩ := seat_links_of_evolves hevolves hs
    simpa only [heq, hcount, Link.Touches, hsource, htarget, hinner] using
      h.mem_outerLinks_iff v s' hs' e

/-- Without outer links a seat has inner links only. -/
theorem LinksListed.isInner_of_outerLinks_eq_nil (h : LinksListed d) {v e : Nat} {s : Seat K}
    (hs : (d.body v).seat? = some s) (houter : s.outerLinks = []) (he : e < d.links.size)
    (htouches : (d.link e).Touches v) : (d.link e).isInner = true := by
  by_contra hnot
  have hmem := (h.mem_outerLinks_iff v s hs e).mpr ⟨he, htouches, (Bool.not_eq_true _).mp hnot⟩
  rw [houter] at hmem
  cases hmem

/-! ## Nodes -/

theorem toList_bodies (d : Drawing K) : d.bodies.toList = (List.range d.bodies.size).map d.body := by
  refine List.ext_getElem (by simp) fun v hv _ => ?_
  simp [body, Array.getElem?_eq_getElem (Array.length_toList ▸ hv)]

/-- The nodes of a new drawing have the ids of the nodes that are drawn. -/
theorem ids_build {g : Graph K} {o : Options K} (h : build g o = .ok built) :
    built.nodeCount ≤ built.bodies.size ∧
      (List.range built.nodeCount).filterMap (fun v => (built.body v).id) = g.drawnIds := by
  obtain ⟨⟨⟩, -, h⟩ := bind_eq_ok h
  obtain ⟨cs, -, h⟩ := bind_eq_ok h
  cases h
  have hcount : (ofClusters g o cs).nodeCount = g.drawnIds.length := (List.length_map ..).symm
  constructor
  · simp [ofClusters]
  · calc (List.range (ofClusters g o cs).nodeCount).filterMap (fun v =>
          ((ofClusters g o cs).body v).id)
        = (List.range g.drawnIds.length).filterMap (fun v => g.drawnIds[v]?) := by
          rw [hcount]
          refine List.filterMap_congr fun v hv => id_ofClusters ?_
          rwa [List.mem_range, ← hcount] at hv
      _ = g.drawnIds := filterMap_getElem?_range _

theorem AsBuilt.ids_eq {g : Graph K} {o : Options K} (h : build g o = .ok built)
    (hbuilt : AsBuilt built d) :
    (d.bodies.toList.take d.nodeCount).filterMap (·.id) = g.drawnIds := by
  obtain ⟨hle, hids⟩ := ids_build h
  rw [hbuilt.nodeCount_eq, toList_bodies, ← List.map_take, List.take_range, hbuilt.bodyCount_eq,
    Nat.min_eq_left hle, List.filterMap_map, ← hids]
  refine List.filterMap_congr fun v hv => hbuilt.id_eq v ?_
  exact List.mem_range.mp hv

end Drawing

namespace Run

open Drawing (AsBuilt)

/-- A layout names the nodes of its drawing. -/
theorem positions_perm (r : Run K) : ((Layout.ofRun r).positions.map Prod.fst).Perm
    ((r.drawing.bodies.toList.take r.drawing.nodeCount).filterMap (·.id)) := by
  let entries := (r.drawing.bodies.toList.take r.drawing.nodeCount).filterMap fun b =>
    b.id.map fun id => (id, b.center)
  have hsorted : (Layout.ofRun r).positions.Perm entries := List.mergeSort_perm _ _
  refine (hsorted.map Prod.fst).trans (.of_eq ?_)
  rw [List.map_filterMap]
  refine List.filterMap_congr fun b _ => ?_
  cases b.id <;> rfl

/-- A state of a run whose drawing is as it was built. -/
structure Intact (g : Graph K) (built : Drawing K) (r : Run K) : Prop where
  asBuilt : AsBuilt built r.drawing
  /-- What is set aside does not move before the end. -/
  tile_eq : r.stage ≠ .postProcessed → ∀ v ∈ built.tiled,
    (r.drawing.body v).box = (built.body v).box
  /-- Every drawn node of the graph has one position. -/
  positions_perm : ((Layout.ofRun r).positions.map Prod.fst).Perm g.drawnIds
  positions_nodup : ((Layout.ofRun r).positions.map Prod.fst).Nodup

theorem Descends.intact {g : Graph K} {o : Options K} {built : Drawing K} {r : Run K}
    (hbuild : Drawing.build g o = .ok built) (h : Descends built r) : Intact g built r := by
  have hbuilt := Drawing.asBuilt_of_course hbuild h.moves
  have hperm := (positions_perm r).trans (.of_eq (hbuilt.ids_eq hbuild))
  constructor
  case asBuilt => exact hbuilt
  case tile_eq =>
    exact fun hstage v hv => (h.drifts hstage).tile_eq (Drawing.sound_build hbuild) hv
  case positions_perm => exact hperm
  case positions_nodup =>
    obtain ⟨⟨⟩, hvalid, -⟩ := Drawing.bind_eq_ok hbuild
    refine hperm.nodup_iff.mpr ?_
    exact (g.validate_eq_ok_iff.mp hvalid).1.sublist g.drawnIds_sublist

/-- What a run leaves of the drawing that was built for it. -/
structure KeepsBuilt (g : Graph K) (o : Options K) (start : Run K) : Prop where
  build_eq : Drawing.build g o = .ok start.drawing
  /-- In the midst of the preparation, of iterations and of the end too. -/
  visits : ∀ d, start.Visits d → AsBuilt start.drawing d
  afterAll : ∀ calls, Intact g start.drawing (start.afterAll calls)
  starts : ∀ calls, ∀ q ∈ start.starts calls, Intact g start.drawing q

/-- In all of a run the drawing is as it was built. -/
theorem keepsBuilt {g : Graph K} {o : Options K} {start : Run K} (h : create g o = .ok start) :
    KeepsBuilt g o start := by
  obtain ⟨built, hbuild, rfl⟩ := create_eq_ok h
  have hsound := Drawing.sound_build hbuild
  have hpath := fun calls =>
    (descends_ofDrawing built o).path hsound ((ofDrawing built o).path_afterAll calls)
  constructor
  case build_eq => exact hbuild
  case visits => exact fun d hd => Drawing.asBuilt_of_course hbuild (hd.moves hsound)
  case afterAll => exact fun calls => (hpath calls).1.intact hbuild
  case starts => exact fun calls q hq => ((hpath calls).2 q hq).intact hbuild

theorem keepsBuilt_partsAndLoners : ∃ start : Run ℝ,
    create Drawing.partsAndLoners Drawing.pairRing = .ok start ∧ start.drawing.tiled = [5, 6] ∧
      KeepsBuilt Drawing.partsAndLoners Drawing.pairRing start :=
  ⟨_, create_partsAndLoners, rfl, keepsBuilt create_partsAndLoners⟩

end Run

end RingLayout
