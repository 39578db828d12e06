import RingLayout.Proofs.Links
import RingLayout.Proofs.Seating.Rings

/-! # Views of links

The rings, the seats, the adjacency and the bodies set aside of a new drawing show its links, each
in its own way. They are filled in separately, and all of them agree.
-/

open scoped List

namespace RingLayout

/-- Whether a link ends at a body. -/
def Link.Touches {K : Type} (l : Link K) (v : Nat) : Prop := l.source = v ∨ l.target = v

namespace Drawing

variable {K : Type}

/-! ## Adjacency -/

/-- What a linked pair adds to the neighbours of a body. -/
def entryAt? (v : Nat) : (Nat × Nat) × Nat → Option (Nat × Nat)
  | ((a, b), e) => if a = v then some (b, e) else if b = v then some (a, e) else none

theorem getD_foldl_adjacency {n : Nat} (pairs : List ((Nat × Nat) × Nat))
    (hpairs : ∀ p ∈ pairs, p.1.1 ≠ p.1.2 ∧ p.1.1 < n ∧ p.1.2 < n)
    {adj : Array (List (Nat × Nat))} (hadj : adj.size = n) (v : Nat) :
    (pairs.foldl
      (fun adj ((a, b), e) => (adj.modify a (· ++ [(b, e)])).modify b (· ++ [(a, e)])) adj).getD
        v [] = adj.getD v [] ++ pairs.filterMap (entryAt? v) := by
  induction pairs generalizing adj with
  | nil => simp
  | cons p pairs ih =>
      obtain ⟨⟨a, b⟩, e⟩ := p
      obtain ⟨hab, ha, hb⟩ := hpairs _ List.mem_cons_self
      rw [List.foldl_cons, ih (fun q hq => hpairs q (List.mem_cons_of_mem _ hq))
        (by simpa using hadj), List.filterMap_cons]
      simp only [Array.getD_eq_getD_getElem?, Array.getElem?_modify, entryAt?]
      by_cases hva : a = v
      · subst hva
        simp [Ne.symm hab, Array.getElem?_eq_getElem (hadj ▸ ha)]
      · by_cases hvb : b = v
        · subst hvb
          simp [hab, Array.getElem?_eq_getElem (hadj ▸ hb)]
        · simp [hva, hvb]

/-- The neighbours of a body by the links that end at it. -/
theorem getD_adjacencyOf {n : Nat} {pairs : List (Nat × Nat)}
    (hpairs : ∀ p ∈ pairs, p.1 ≠ p.2 ∧ p.1 < n ∧ p.2 < n) (v : Nat) :
    (adjacencyOf n pairs).getD v [] = pairs.zipIdx.filterMap (entryAt? v) := by
  have hempty : (Array.replicate n ([] : List (Nat × Nat))).getD v [] = [] := by
    rw [Array.getD_eq_getD_getElem?, Array.getElem?_replicate]
    split <;> rfl
  rw [adjacencyOf, getD_foldl_adjacency (n := n) _ _ Array.size_replicate, hempty,
    List.nil_append]
  intro p hp
  exact hpairs p.1 (List.fst_mem_of_mem_zipIdx hp)

/-- The links at a body are its entries in increasing order. -/
theorem map_entryAt? (v : Nat) (pairs : List ((Nat × Nat) × Nat)) :
    (pairs.filterMap (entryAt? v)).map (·.2) =
      (pairs.filter fun p => p.1.1 == v || p.1.2 == v).map (·.2) := by
  induction pairs with
  | nil => rfl
  | cons p pairs ih =>
      obtain ⟨⟨a, b⟩, e⟩ := p
      rw [List.filterMap_cons, List.filter_cons]
      by_cases ha : a = v
      · simp [entryAt?, ha, ih]
      · by_cases hb : b = v
        · simp [entryAt?, ha, hb, ih]
        · simp [entryAt?, ha, hb, ih]

/-! ## New drawings -/

/-- Cells are read with the nodes of the graph alone. -/
theorem readCell_congr_edges (g : Graph K) (edges : List Edge) (ids : List String) (cell : Nat)
    (names : List String) (owners : List (Nat × Nat)) :
    readCell { g with edges := edges } ids cell names owners =
      readCell g ids cell names owners := by
  induction names generalizing owners with
  | nil => rfl
  | cons id names ih =>
      rw [readCell, readCell, ih]
      simp only [ih]
      rfl

theorem readCells_congr_edges (g : Graph K) (edges : List Edge) (ids : List String) (cell : Nat)
    (cells : List (List String)) (owners : List (Nat × Nat)) :
    readCells { g with edges := edges } ids cell cells owners =
      readCells g ids cell cells owners := by
  induction cells generalizing cell owners with
  | nil => rfl
  | cons names cells ih => simp only [readCells, readCell_congr_edges, ih]

theorem clusters_congr_edges (g : Graph K) (edges : List Edge) (clustering : Clustering K) :
    clusters { g with edges := edges } clustering = clusters g clustering := by
  cases clustering with
  | cells cells => exact readCells_congr_edges g edges _ 0 cells []
  | _ => rfl

theorem commonRing?_eq_some_iff {n : Nat} {cs : List (List Nat)} (h : Disjoint n cs)
    {a b c : Nat} :
    commonRing? cs a b = some c ↔ a ∈ cs.getD c [] ∧ b ∈ cs.getD c [] := by
  rw [← h.clusterOf?_eq_some_iff, ← h.clusterOf?_eq_some_iff, commonRing?]
  cases clusterOf? cs a with
  | none => simp
  | some x =>
      cases clusterOf? cs b with
      | none => simp
      | some y =>
          simp only [Option.ite_none_right_eq_some, Option.some.injEq]
          constructor
          · rintro ⟨rfl, rfl⟩
            exact ⟨rfl, rfl⟩
          · rintro ⟨rfl, rfl⟩
            exact ⟨rfl, rfl⟩

theorem touches_iff (l : Link K) (v : Nat) :
    (l.source == v || l.target == v) = true ↔ l.Touches v := by
  rw [Bool.or_eq_true, beq_iff_eq, beq_iff_eq, Link.Touches]

theorem listing_linksWhere (links : List (Link K)) (test : Link K → Bool) :
    Listing (linksWhere links test) fun e => ∃ l, links[e]? = some l ∧ test l = true :=
  listing_positions test links

variable [Scalar K] {g : Graph K} {o : Options K} {cs : List (List Nat)}

/-- Edges count for a drawing by the pairs that they link. -/
theorem ofClusters_congr_edges {edges : List Edge}
    (hpairs : linkPairs g.drawnIds [] edges = linkPairs g.drawnIds [] g.edges) :
    ofClusters { g with edges := edges } o cs = ofClusters g o cs := by
  have hnodes : Graph.drawnNodes { g with edges := edges } = g.drawnNodes := rfl
  have hgroups : Graph.groupIds { g with edges := edges } = g.groupIds := rfl
  unfold Graph.drawnIds at hpairs
  unfold ofClusters
  simp only [hnodes, hgroups, hpairs]

theorem links_ofClusters : (ofClusters g o cs).links = (newLinks g o cs).toArray := rfl

theorem getElem?_links_ofClusters (e : Nat) :
    (ofClusters g o cs).links[e]? = (newLinks g o cs)[e]? :=
  List.getElem?_toArray

/-- A new link joins two distinct nodes, and it belongs to the ring that both of them are on. -/
theorem newLinks_spec {l : Link K} (hl : l ∈ newLinks g o cs) :
    l.source ≠ l.target ∧ l.source < g.drawnNodes.length ∧ l.target < g.drawnNodes.length ∧
      l.ring = commonRing? cs l.source l.target := by
  obtain ⟨p, hp, rfl⟩ := List.mem_map.mp hl
  obtain ⟨hne, hsource, htarget⟩ := linkPairs_ne _ _ _ p hp
  rw [List.length_map] at hsource htarget
  exact ⟨hne, hsource, htarget, rfl⟩

theorem ring_ofClusters_of_lt {c : Nat} (hc : c < cs.length) :
    (ofClusters g o cs).ring c =
      ringOf (cs.getD c []) (g.drawnNodes.length + c) c (newLinks g o cs) := by
  simp only [ring, ofClusters, Array.getD_eq_getD_getElem?, List.getElem?_toArray,
    List.getElem?_map, List.getElem?_zipIdx, List.getD_eq_getElem?_getD,
    List.getElem?_eq_getElem hc, Option.map_some, Option.getD_some, Nat.zero_add]
  rfl

theorem body_ofClusters {v : Nat} {n : Node K} (hn : g.drawnNodes[v]? = some n) :
    (ofClusters g o cs).body v = nodeBody n (roleOf cs (newLinks g o cs) v) := by
  obtain ⟨hv, rfl⟩ := List.getElem?_eq_some_iff.mp hn
  simp only [body, ofClusters, Array.getD_eq_getD_getElem?, Array.getElem?_append,
    List.size_toArray, List.length_map, List.length_zipIdx, List.getElem?_toArray, hv, if_true,
    List.getElem?_map, List.getElem?_zipIdx, hn, Option.map_some, Option.getD_some, Nat.zero_add]
  rfl

theorem id_ofClusters {v : Nat} (hv : v < g.drawnNodes.length) :
    ((ofClusters g o cs).body v).id = g.drawnIds[v]? := by
  rw [body_ofClusters (List.getElem?_eq_getElem hv), Graph.drawnIds, List.getElem?_map,
    List.getElem?_eq_getElem hv]
  rfl

/-- The seat of a member shows the links that end at it, by whether they leave its ring. -/
theorem links_of_seat {v : Nat} {s : Seat K} (hs : ((ofClusters g o cs).body v).seat? = some s) :
    s.innerLinks = linksWhere (newLinks g o cs)
        (fun l => (l.source == v || l.target == v) && l.isInner) ∧
      s.outerLinks = linksWhere (newLinks g o cs)
        (fun l => (l.source == v || l.target == v) && !l.isInner) := by
  have hplace := place_ofClusters g o cs v
  have hrole : ((ofClusters g o cs).skeleton.place v) =
      .seated s.ring s.index s.innerLinks s.outerLinks := by
    change ((ofClusters g o cs).body v).role.place = _
    unfold Body.seat? at hs
    cases hr : ((ofClusters g o cs).body v).role with
    | seated t =>
        rw [hr] at hs
        cases hs
        rfl
    | _ =>
        rw [hr] at hs
        cases hs
  rw [hrole] at hplace
  split at hplace
  · unfold roleOf at hplace
    split at hplace
    · cases hplace
    · injection hplace with _ _ hinner houter
      exact ⟨hinner, houter⟩
  · split at hplace <;> cases hplace

theorem isInner_iff (h : Disjoint g.drawnNodes.length cs) {l : Link K}
    (hl : l ∈ newLinks g o cs) :
    l.isInner = true ↔ ∃ c, l.source ∈ cs.getD c [] ∧ l.target ∈ cs.getD c [] := by
  obtain ⟨-, -, -, hring⟩ := newLinks_spec hl
  rw [Link.isInner, hring, Option.isSome_iff_exists]
  exact exists_congr fun c => commonRing?_eq_some_iff h

/-- A link leaves the ring of a member unless both ends are members of this ring. -/
theorem xor_mem_iff (h : Disjoint g.drawnNodes.length cs) {l : Link K}
    (hl : l ∈ newLinks g o cs) (c : Nat) :
    (!l.isInner && ((cs.getD c []).contains l.source || (cs.getD c []).contains l.target)) = true ↔
      Xor (l.source ∈ cs.getD c []) (l.target ∈ cs.getD c []) := by
  have hinner := isInner_iff h hl
  rw [Bool.and_eq_true, Bool.not_eq_true', ← Bool.not_eq_true, hinner, Bool.or_eq_true,
    List.contains_iff_mem, List.contains_iff_mem]
  -- an inner link with one end here has the other end here as well
  have hunique : ∀ {v b : Nat}, v ∈ cs.getD b [] → v ∈ cs.getD c [] → b = c := by
    intro v b hb hc
    rw [← h.clusterOf?_eq_some_iff] at hb hc
    exact Option.some.inj (hb.symm.trans hc)
  constructor
  · rintro ⟨hnot, hsource | htarget⟩
    · exact Or.inl ⟨hsource, fun htarget => hnot ⟨c, hsource, htarget⟩⟩
    · exact Or.inr ⟨htarget, fun hsource => hnot ⟨c, hsource, htarget⟩⟩
  · rintro (⟨hsource, htarget⟩ | ⟨htarget, hsource⟩)
    · exact ⟨fun ⟨b, hb, hb'⟩ => htarget (hunique hb hsource ▸ hb'), Or.inl hsource⟩
    · exact ⟨fun ⟨b, hb, hb'⟩ => hsource (hunique hb' htarget ▸ hb), Or.inr htarget⟩

theorem getD_eq_nil {c : Nat} (hc : ¬c < cs.length) : cs.getD c [] = [] := by
  rw [List.getD_eq_getElem?_getD, List.getElem?_eq_none (Nat.le_of_not_lt hc), Option.getD_none]

theorem listing_innerLinks (h : Disjoint g.drawnNodes.length cs) (c : Nat) :
    Listing ((ofClusters g o cs).ring c).innerLinks fun e =>
      ∃ l, (ofClusters g o cs).links[e]? = some l ∧
        l.source ∈ cs.getD c [] ∧ l.target ∈ cs.getD c [] := by
  change Listing ((ofClusters g o cs).skeleton.ring c).innerLinks _
  rw [ring_ofClusters]
  split
  next =>
    refine (listing_linksWhere (newLinks g o cs) fun l => l.ring == some c).congr fun e => ?_
    rw [getElem?_links_ofClusters]
    refine exists_congr fun l => and_congr_right fun hl => ?_
    rw [beq_iff_eq, (newLinks_spec (List.mem_of_getElem? hl)).2.2.2, commonRing?_eq_some_iff h]
  next hc =>
    rw [getD_eq_nil hc]
    exact ⟨List.Pairwise.nil, fun e => by simp [Ring.shape, blankRing]⟩

theorem listing_outerLinks (h : Disjoint g.drawnNodes.length cs) (c : Nat) :
    Listing ((ofClusters g o cs).ring c).outerLinks fun e =>
      ∃ l, (ofClusters g o cs).links[e]? = some l ∧
        Xor (l.source ∈ cs.getD c []) (l.target ∈ cs.getD c []) := by
  change Listing ((ofClusters g o cs).skeleton.ring c).outerLinks _
  rw [ring_ofClusters]
  split
  next =>
    refine (listing_linksWhere (newLinks g o cs) fun l => !l.isInner &&
      ((cs.getD c []).contains l.source || (cs.getD c []).contains l.target)).congr fun e => ?_
    rw [getElem?_links_ofClusters]
    exact exists_congr fun l => and_congr_right fun hl =>
      xor_mem_iff h (List.mem_of_getElem? hl) c
  next hc =>
    rw [getD_eq_nil hc]
    exact ⟨List.Pairwise.nil, fun e => by simp [Ring.shape, blankRing]⟩

theorem adjacency_ofClusters (v : Nat) :
    (ofClusters g o cs).adjacency.getD v [] =
      (linkPairs g.drawnIds [] g.edges).zipIdx.filterMap (entryAt? v) := by
  refine getD_adjacencyOf (fun p hp => ?_) v
  obtain ⟨hne, hsource, htarget⟩ := linkPairs_ne _ _ _ p hp
  rw [List.length_map] at hsource htarget
  exact ⟨hne, Nat.lt_add_right _ hsource, Nat.lt_add_right _ htarget⟩

theorem getElem?_newLinks_eq_some_iff {e : Nat} {l : Link K} :
    (newLinks g o cs)[e]? = some l ↔ ∃ p, (linkPairs g.drawnIds [] g.edges)[e]? = some p ∧
      l = ⟨p.1, p.2, commonRing? cs p.1 p.2, o.effectiveEdgeLength⟩ := by
  rw [newLinks, List.getElem?_map, Option.map_eq_some_iff]
  exact exists_congr fun p => and_congr_right fun _ => eq_comm

theorem listing_adjacency (g : Graph K) (o : Options K) (cs : List (List Nat)) (v : Nat) :
    Listing (((ofClusters g o cs).adjacency.getD v []).map (·.2)) fun e =>
      ∃ l, (ofClusters g o cs).links[e]? = some l ∧ l.Touches v := by
  rw [adjacency_ofClusters, map_entryAt?]
  refine (listing_positions (fun p : Nat × Nat => p.1 == v || p.2 == v) _).congr fun e => ?_
  simp only [getElem?_links_ofClusters, getElem?_newLinks_eq_some_iff]
  constructor
  · rintro ⟨p, hp, htouches⟩
    exact ⟨_, ⟨p, hp, rfl⟩, (touches_iff _ v).mp htouches⟩
  · rintro ⟨_, ⟨p, hp, rfl⟩, htouches⟩
    exact ⟨p, hp, (touches_iff _ v).mpr htouches⟩

theorem adjacency_other_ofClusters (v : Nat) :
    ∀ p ∈ (ofClusters g o cs).adjacency.getD v [],
      ∃ l, (ofClusters g o cs).links[p.2]? = some l ∧ p.1 = l.other v := by
  rw [adjacency_ofClusters]
  intro p hp
  obtain ⟨⟨⟨a, b⟩, e⟩, hmem, hentry⟩ := List.mem_filterMap.mp hp
  have hpair := List.mem_zipIdx_iff_getElem?.mp hmem
  have hlink : (ofClusters g o cs).links[e]? =
      some ⟨a, b, commonRing? cs a b, o.effectiveEdgeLength⟩ := by
    rw [getElem?_links_ofClusters, getElem?_newLinks_eq_some_iff]
    exact ⟨(a, b), hpair, rfl⟩
  simp only [entryAt?] at hentry
  split at hentry
  next ha =>
    cases hentry
    exact ⟨_, hlink, by simp [Link.other, ha]⟩
  next ha =>
    split at hentry
    · cases hentry
      exact ⟨_, hlink, by simp [Link.other, ha]⟩
    · cases hentry

theorem listing_tiled (h : Disjoint g.drawnNodes.length cs) (htile : o.tile = true) :
    Listing (ofClusters g o cs).tiled fun v => v < g.drawnNodes.length ∧
      (∀ c, v ∉ cs.getD c []) ∧ ∀ l ∈ (ofClusters g o cs).links, ¬l.Touches v := by
  have hempty : ∀ v, ((ofClusters g o cs).adjacency.getD v []).isEmpty = true ↔
      ∀ l ∈ (ofClusters g o cs).links, ¬l.Touches v := by
    intro v
    have hlist := (listing_adjacency g o cs v).mem_iff
    rw [List.isEmpty_iff, ← List.map_eq_nil_iff (f := Prod.snd), List.eq_nil_iff_forall_not_mem]
    simp only [hlist, not_exists, not_and, Array.mem_iff_getElem?]
    exact ⟨fun hnone l ⟨e, he⟩ => hnone e l he, fun hnone e l he => hnone l ⟨e, he⟩⟩
  have hloose : ∀ v, (clusterOf? cs v).isNone = true ↔ ∀ c, v ∉ cs.getD c [] := by
    intro v
    rw [Option.isNone_iff_eq_none, Option.eq_none_iff_forall_ne_some]
    exact forall_congr' fun c => not_congr h.clusterOf?_eq_some_iff
  have htiled : (ofClusters g o cs).tiled = (List.range g.drawnNodes.length).filter fun v =>
      ((ofClusters g o cs).adjacency.getD v []).isEmpty && (clusterOf? cs v).isNone := by
    simp only [ofClusters, htile, Bool.true_and, List.filter_filter]
  rw [htiled]
  refine listing_range.congr fun v => ?_
  rw [Bool.and_eq_true, hempty, hloose]
  tauto

/-- What a new drawing says about its links, and what the graph and its clusters say. -/
structure LinkViews (g : Graph K) (o : Options K) (cs : List (List Nat)) (d : Drawing K) :
    Prop where
  id_eq : ∀ v n, g.drawnNodes[v]? = some n → (d.body v).id = some n.id
  nodeCount_eq : d.nodeCount = g.drawnNodes.length
  order_eq : ∀ c, (d.ring c).order = cs.getD c []
  /-- The links are, in order, the first edges of all pairs of distinct drawn nodes. -/
  links_eq : d.links.toList.map (fun l => ((d.body l.source).id, (d.body l.target).id)) =
    g.firstEdges.map fun e => (some e.source, some e.target)
  ends_lt : ∀ l ∈ d.links, l.source ≠ l.target ∧ l.source < d.nodeCount ∧ l.target < d.nodeCount
  ring_eq_iff : ∀ l ∈ d.links, ∀ c,
    l.ring = some c ↔ l.source ∈ (d.ring c).order ∧ l.target ∈ (d.ring c).order
  /-- The inner links of a ring have both ends among its members. -/
  ring_innerLinks : ∀ c, Listing (d.ring c).innerLinks fun e => ∃ l, d.links[e]? = some l ∧
    l.source ∈ (d.ring c).order ∧ l.target ∈ (d.ring c).order
  /-- The outer links of a ring have exactly one end among its members. -/
  ring_outerLinks : ∀ c, Listing (d.ring c).outerLinks fun e => ∃ l, d.links[e]? = some l ∧
    Xor (l.source ∈ (d.ring c).order) (l.target ∈ (d.ring c).order)
  seat_of_order : ∀ c, ∀ v ∈ (d.ring c).order, ∃ s, (d.body v).seat? = some s ∧ s.ring = c
  seat_innerLinks : ∀ v s, (d.body v).seat? = some s →
    Listing s.innerLinks fun e => ∃ l, d.links[e]? = some l ∧ l.Touches v ∧ l.isInner = true
  seat_outerLinks : ∀ v s, (d.body v).seat? = some s →
    Listing s.outerLinks fun e => ∃ l, d.links[e]? = some l ∧ l.Touches v ∧ l.isInner = false
  adjacency : ∀ v, Listing ((d.adjacency.getD v []).map (·.2)) fun e =>
    ∃ l, d.links[e]? = some l ∧ l.Touches v
  adjacency_other : ∀ v, ∀ p ∈ d.adjacency.getD v [],
    ∃ l, d.links[p.2]? = some l ∧ p.1 = l.other v
  mayReverse_iff : ∀ c, (d.ring c).mayReverse = true ↔ 2 ≤ (d.ring c).outerLinks.length
  tiled_of_not_tile : o.tile = false → d.tiled = []
  /-- Set aside are the nodes on no ring at which no link ends. -/
  tiled_of_tile : o.tile = true → Listing d.tiled fun v =>
    v < d.nodeCount ∧ (∀ c, v ∉ (d.ring c).order) ∧ ∀ l ∈ d.links, ¬l.Touches v
  /-- An edge that adds no link where it stands changes nothing. -/
  build_insert : ∀ pre post e, g.edges = pre ++ post → e.source ∈ g.ids → e.target ∈ g.ids →
    g.addsLink pre e = false → build { g with edges := pre ++ e :: post } o = .ok d

/-- All views of the links of a new drawing agree with each other and with the graph. -/
theorem linkViews_build {d : Drawing K} (h : build g o = .ok d) :
    ∃ cs, clusters g o.clustering = .ok cs ∧ LinkViews g o cs d := by
  obtain ⟨⟨⟩, hvalid, h⟩ := bind_eq_ok h
  obtain ⟨cs, hcs, h⟩ := bind_eq_ok h
  cases h
  have hdisjoint := clusters_disjoint hcs
  have hids : g.drawnIds.Nodup := (g.validate_eq_ok_iff.mp hvalid).1.sublist g.drawnIds_sublist
  have horder : ∀ c, ((ofClusters g o cs).ring c).order = cs.getD c [] := order_ofClusters g o cs
  refine ⟨cs, hcs, ?_⟩
  constructor
  case id_eq =>
    intro v n hn
    rw [body_ofClusters hn]
    rfl
  case nodeCount_eq => rfl
  case order_eq => exact horder
  case links_eq =>
    have hnil : SeesPairs g.drawnIds [] [] := fun _ _ _ _ _ _ => by simp
    have hpairs := map_linkPairs hids hnil g.edges
    rw [Graph.firstEdges, List.map_map]
    refine Eq.trans ?_ hpairs
    rw [links_ofClusters, newLinks, List.map_map]
    refine List.map_congr_left fun p hp => ?_
    obtain ⟨-, hsource, htarget⟩ := linkPairs_ne _ _ _ p hp
    rw [List.length_map] at hsource htarget
    exact Prod.ext (id_ofClusters hsource) (id_ofClusters htarget)
  case ends_lt =>
    intro l hl
    obtain ⟨hne, hsource, htarget, -⟩ := newLinks_spec (List.mem_toArray.mp hl)
    exact ⟨hne, hsource, htarget⟩
  case ring_eq_iff =>
    intro l hl c
    rw [horder, (newLinks_spec (List.mem_toArray.mp hl)).2.2.2, commonRing?_eq_some_iff hdisjoint]
  case ring_innerLinks =>
    intro c
    rw [horder]
    exact listing_innerLinks hdisjoint c
  case ring_outerLinks =>
    intro c
    rw [horder]
    exact listing_outerLinks hdisjoint c
  case seat_of_order =>
    intro c v hv
    rw [horder] at hv
    have hseated := (seated_ofClusters (o := o) hdisjoint)
    have hwell : ((ofClusters g o cs).body v).role.place.seat? = _ :=
      hseated.seat?_of_mem (c := c) (by rwa [order_ofClusters])
    rw [Role.seat?_place, Option.map_eq_some_iff] at hwell
    obtain ⟨s, hs, heq⟩ := hwell
    exact ⟨s, hs, congrArg Prod.fst heq⟩
  case seat_innerLinks =>
    intro v s hs
    rw [(links_of_seat hs).1]
    refine (listing_linksWhere _ _).congr fun e => ?_
    simp only [getElem?_links_ofClusters, Bool.and_eq_true, touches_iff]
  case seat_outerLinks =>
    intro v s hs
    rw [(links_of_seat hs).2]
    refine (listing_linksWhere _ _).congr fun e => ?_
    simp only [getElem?_links_ofClusters, Bool.and_eq_true, touches_iff, Bool.not_eq_true']
  case adjacency => exact listing_adjacency g o cs
  case adjacency_other => exact adjacency_other_ofClusters
  case mayReverse_iff =>
    intro c
    by_cases hc : c < cs.length
    · rw [ring_ofClusters_of_lt hc]
      exact decide_eq_true_iff
    · rw [ring_eq_blank (by simpa [ofClusters] using hc)]
      simp [blankRing]
  case tiled_of_not_tile =>
    intro htile
    simp [ofClusters, htile]
  case tiled_of_tile =>
    intro htile
    simp only [horder]
    exact listing_tiled hdisjoint htile
  case build_insert =>
    intro pre post e hedges hsource htarget hadds
    have hpairs := linkPairs_insert hids post hadds
    rw [← hedges] at hpairs
    have hvalid' : Graph.validate { g with edges := pre ++ e :: post } = .ok () := by
      rw [Graph.validate_eq_ok_iff] at hvalid ⊢
      refine ⟨hvalid.1, fun f hf => ?_⟩
      rcases List.mem_append.mp hf with hf | hf
      · exact hvalid.2 f (hedges ▸ List.mem_append_left _ hf)
      · rcases List.mem_cons.mp hf with rfl | hf
        · exact ⟨hsource, htarget⟩
        · exact hvalid.2 f (hedges ▸ List.mem_append_right _ hf)
    have hcs' : clusters { g with edges := pre ++ e :: post } o.clustering = .ok cs := by
      rwa [clusters_congr_edges]
    rw [build, hvalid']
    change (clusters _ o.clustering >>= fun cs => pure (ofClusters _ o cs)) = _
    rw [hcs']
    exact congrArg Except.ok (ofClusters_congr_edges hpairs)

/-- Two rings of two nodes each, an isolated node and a group. Of the edges two are loops or end at
the group, and two join a pair that is joined before. -/
def repeatedEdges : Graph Float where
  nodes := [⟨"a", 30, 20, none, none, false⟩, ⟨"b", 30, 20, none, some "p", false⟩,
    ⟨"p", 30, 20, none, none, true⟩, ⟨"c", 30, 20, none, none, false⟩,
    ⟨"d", 30, 20, none, none, false⟩, ⟨"e", 30, 20, none, none, false⟩]
  edges := [⟨"aa", "a", "a"⟩, ⟨"ab", "a", "b"⟩, ⟨"ap", "a", "p"⟩, ⟨"bc", "b", "c"⟩,
    ⟨"ba", "b", "a"⟩, ⟨"cd", "c", "d"⟩, ⟨"bc", "b", "c"⟩]

def twoRings : Options Float :=
  { (Options.defaults : Options Float) with clustering := .cells [["a", "b"], ["p", "d", "c"]] }

theorem build_repeatedEdges :
    build repeatedEdges twoRings = .ok (ofClusters repeatedEdges twoRings [[0, 1], [3, 2]]) := rfl

theorem linkViews_build_repeatedEdges : ∃ d, build repeatedEdges twoRings = .ok d ∧
    ∃ cs, clusters repeatedEdges twoRings.clustering = .ok cs ∧
      LinkViews repeatedEdges twoRings cs d :=
  ⟨_, build_repeatedEdges, linkViews_build build_repeatedEdges⟩

end Drawing

end RingLayout
