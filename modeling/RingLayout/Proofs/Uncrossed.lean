import Mathlib.Combinatorics.SimpleGraph.Acyclic
import Mathlib.Combinatorics.SimpleGraph.CycleGraph
import RingLayout.Proofs.Refinement
import RingLayout.Proofs.Seating.Operations
import RingLayout.Proofs.Walk

/-! # Rings without crossings

A depth-first order of a tree has the vertices between two neighbours below the first of them, and
a depth-first order of a cycle follows it. So two chords of such a graph never cross, whatever the
start of the walk and its choice among neighbours, and refinement leaves an order alone that has
no crossings.
-/

namespace RingLayout

/-! ## Depth-first orders -/

section Orders

variable {V : Type} {G : SimpleGraph V} {order : List V}

/-- Every component of a graph is a tree or a cycle. -/
def TreesAndCycles (G : SimpleGraph V) : Prop :=
  ∀ C : G.ConnectedComponent, C.toSimpleGraph.IsTree ∨
    ∃ k, 3 ≤ k ∧ Nonempty (C.toSimpleGraph ≃g SimpleGraph.cycleGraph k)

/-- After a vertex of an order, each vertex up to its last neighbour has an earlier neighbour that
is not before it. -/
def DepthFirst (G : SimpleGraph V) (order : List V) : Prop :=
  ∀ ⦃i j k : Nat⦄ ⦃u v w : V⦄, i < j → j ≤ k → order[i]? = some u → order[j]? = some v →
    order[k]? = some w → G.Adj u w → ∃ m x, i ≤ m ∧ m < j ∧ order[m]? = some x ∧ G.Adj x v

/-- A vertex of a cycle has two neighbours. -/
theorem eq_or_eq_of_cycle {k : Nat} (hk : 3 ≤ k) (φ : G ≃g SimpleGraph.cycleGraph k)
    {x u v w : V} (hu : G.Adj x u) (hv : G.Adj x v) (hw : G.Adj x w) (huv : u ≠ v) :
    w = u ∨ w = v := by
  obtain ⟨n, rfl⟩ := Nat.exists_eq_add_of_le' hk
  have hsides : ∀ y, G.Adj x y → φ y = φ x - 1 ∨ φ y = φ x + 1 := by
    intro y hy
    have hmem : φ y ∈ (SimpleGraph.cycleGraph (n + 1 + 2)).neighborSet (φ x) :=
      φ.map_adj_iff.mpr hy
    rwa [SimpleGraph.cycleGraph_neighborSet] at hmem
  have hne : φ u ≠ φ v := φ.injective.ne huv
  rcases hsides w hw with h | h
  · rcases hsides u hu with hu | hu
    · exact .inl (φ.injective (h.trans hu.symm))
    · refine .inr (φ.injective (h.trans ?_))
      exact ((hsides v hv).resolve_right fun hv => hne (hu.trans hv.symm)).symm
  · rcases hsides u hu with hu | hu
    · refine .inr (φ.injective (h.trans ?_))
      exact ((hsides v hv).resolve_left fun hv => hne (hu.trans hv.symm)).symm
    · exact .inl (φ.injective (h.trans hu.symm))

/-- Edges without common ends are trees. -/
theorem TreesAndCycles.of_unique (h : ∀ x y z, G.Adj x y → G.Adj x z → y = z) :
    TreesAndCycles G := by
  have hacyclic : G.IsAcyclic := fun x p hp => hp.snd_ne_penultimate
    (h x _ _ (p.adj_snd hp.not_nil) (p.adj_penultimate hp.not_nil).symm)
  exact fun C => .inl (hacyclic.isTree_connectedComponent C)

namespace DepthFirst

variable (h : DepthFirst G order) (hnodup : order.Nodup) {a b c d : Nat} {x y z w : V}
include h hnodup

/-- Every vertex between two neighbours is reached from the first without the edge to the
second. -/
theorem reachable (C : G.ConnectedComponent) (hxC : x ∈ C) (hzC : z ∈ C)
    (hx : order[a]? = some x) (hz : order[c]? = some z) (hxz : G.Adj x z) {j : Nat} {v : V}
    (haj : a ≤ j) (hjc : j < c) (hv : order[j]? = some v) : ∃ hvC : v ∈ C,
      (C.toSimpleGraph.deleteEdges {s(⟨x, hxC⟩, ⟨z, hzC⟩)}).Reachable ⟨x, hxC⟩ ⟨v, hvC⟩ := by
  induction j using Nat.strongRecOn generalizing v with
  | _ j ih =>
      rcases Nat.eq_or_lt_of_le haj with rfl | haj
      · obtain rfl := Option.some.inj (hx.symm.trans hv)
        exact ⟨hxC, .refl _⟩
      · obtain ⟨m, u, ham, hmj, hu, huv⟩ := h haj (Nat.le_of_lt hjc) hx hv hz hxz
        obtain ⟨huC, hreach⟩ := ih m hmj ham (by omega) hu
        have hvC : v ∈ C := C.mem_supp_of_adj_mem_supp huC huv
        refine ⟨hvC, hreach.trans (SimpleGraph.Adj.reachable ?_)⟩
        rw [SimpleGraph.deleteEdges_adj, C.toSimpleGraph_adj]
        have huz := ne_of_getElem? hnodup (by omega) hu hz
        have hvz := ne_of_getElem? hnodup (by omega) hv hz
        refine ⟨huv, fun heq => ?_⟩
        simp [huz, hvz] at heq

/-- Two edges do not interleave in a depth-first order of trees and cycles. -/
theorem not_interleaved (hG : TreesAndCycles G) (hab : a < b) (hbc : b < c) (hcd : c < d)
    (hx : order[a]? = some x) (hy : order[b]? = some y) (hz : order[c]? = some z)
    (hw : order[d]? = some w) (hxz : G.Adj x z) : ¬G.Adj y w := by
  intro hyw
  -- the second vertex has a neighbour between the first and itself, whose component they are in
  obtain ⟨m, u, ham, hmb, hu, huy⟩ := h hab (Nat.le_of_lt hbc) hx hy hz hxz
  let C := G.connectedComponentMk x
  have hxC : x ∈ C := rfl
  have hzC : z ∈ C := C.mem_supp_of_adj_mem_supp hxC hxz
  obtain ⟨hyC, -⟩ := h.reachable hnodup C hxC hzC hx hz hxz (Nat.le_of_lt hab) hbc hy
  rcases hG C with htree | ⟨k, hk, ⟨φ⟩⟩
  · -- the third vertex has two earlier neighbours, one of them reached from the other
    obtain ⟨i, v, hbi, hic, hv, hvz⟩ := h hbc (Nat.le_of_lt hcd) hy hz hw hyw
    obtain ⟨hvC, hreach⟩ := h.reachable hnodup C hxC hzC hx hz hxz (by omega) hic hv
    have hbridge := SimpleGraph.isAcyclic_iff_forall_adj_isBridge.mp htree.isAcyclic
      ((C.toSimpleGraph_adj hxC hzC).mpr hxz)
    refine SimpleGraph.isBridge_iff.mp hbridge (hreach.trans (SimpleGraph.Adj.reachable ?_))
    rw [SimpleGraph.deleteEdges_adj, C.toSimpleGraph_adj]
    have hvx := ne_of_getElem? hnodup (by omega) hv hx
    have hne := ne_of_getElem? hnodup (by omega) hv hz
    refine ⟨hvz, fun heq => ?_⟩
    simp [hvx, hne] at heq
  · -- the second vertex has an earlier neighbour, the next one, and another later on
    have hlt : b + 1 < order.length := by
      have hlength := (List.getElem?_eq_some_iff.mp hw).1
      omega
    have hv := List.getElem?_eq_getElem hlt
    generalize order[b + 1] = v at hv
    obtain ⟨i, t, hbi, hib, ht, htv⟩ := h (Nat.lt_succ_self b) (by omega) hy hv hw hyw
    obtain rfl : i = b := by omega
    obtain rfl := Option.some.inj (hy.symm.trans ht)
    have huC : u ∈ C := C.mem_supp_of_adj_mem_supp hyC huy.symm
    have hvC : v ∈ C := C.mem_supp_of_adj_mem_supp hyC htv
    have hwC : w ∈ C := C.mem_supp_of_adj_mem_supp hyC hyw
    have huv := ne_of_getElem? hnodup (by omega) hu hv
    rcases eq_or_eq_of_cycle hk φ ((C.toSimpleGraph_adj hyC huC).mpr huy.symm)
      ((C.toSimpleGraph_adj hyC hvC).mpr htv) ((C.toSimpleGraph_adj hyC hwC).mpr hyw)
      (fun heq => huv (Subtype.ext_iff.mp heq)) with heq | heq
    · exact ne_of_getElem? hnodup (by omega) hw hu (Subtype.ext_iff.mp heq)
    · exact ne_of_getElem? hnodup (by omega) hw hv (Subtype.ext_iff.mp heq)

end DepthFirst

end Orders

/-- The chord joins two members whose vertices are adjacent, or the same. -/
def AlongEdge (G : SimpleGraph Nat) (order : List Nat) (p : Chord) : Prop :=
  ∃ u v, order[p.1]? = some u ∧ order[p.2]? = some v ∧ (u ≠ v → G.Adj u v)

namespace AlongEdge

variable {G : SimpleGraph Nat} {order : List Nat} {p q : Chord}

/-- The ends of a chord may change places. -/
theorem min_max (hp : AlongEdge G order p) : AlongEdge G order (min p.1 p.2, max p.1 p.2) := by
  obtain ⟨u, v, hu, hv, huv⟩ := hp
  rcases Nat.le_total p.1 p.2 with hle | hle
  · rw [Nat.min_eq_left hle, Nat.max_eq_right hle]
    exact ⟨u, v, hu, hv, huv⟩
  · rw [Nat.min_eq_right hle, Nat.max_eq_left hle]
    exact ⟨v, u, hv, hu, fun hne => (huv hne.symm).symm⟩

/-- Chords along the edges of trees and cycles do not cross in a depth-first order. -/
theorem crosses_eq_false (hp : AlongEdge G order p) (hq : AlongEdge G order q)
    (horder : DepthFirst G order) (hnodup : order.Nodup) (hG : TreesAndCycles G) :
    p.crosses q = false := by
  have hordered : ∀ {p q : Chord}, AlongEdge G order p → AlongEdge G order q →
      ¬(p.1 < q.1 ∧ q.1 < p.2 ∧ p.2 < q.2) := by
    rintro p q ⟨x, z, hx, hz, hxz⟩ ⟨y, w, hy, hw, hyw⟩ ⟨h1, h2, h3⟩
    refine horder.not_interleaved hnodup hG h1 h2 h3 hx hy hz hw (hxz ?_) (hyw ?_)
    · exact ne_of_getElem? hnodup (by omega) hx hz
    · exact ne_of_getElem? hnodup (by omega) hy hw
  rw [Bool.eq_false_iff, Ne, Chord.crosses_iff]
  exact not_or.mpr ⟨hordered hp.min_max hq.min_max, hordered hq.min_max hp.min_max⟩

end AlongEdge

namespace Skeleton

/-! ## The graph of a ring -/

/-- The graph that links make of the members of an order. Links of a member with itself, and
further links of the same two members, make no difference. -/
def linkGraph (order : List Nat) (links : List LinkShape) : SimpleGraph Nat :=
  .fromRel fun u v => u ∈ order ∧ v ∈ order ∧ ∃ l ∈ links, l.source = u ∧ l.target = v

variable {members order : List Nat} {links : List LinkShape}

theorem chordIn?_eq_some_iff (hmembers : members.Nodup) {l : LinkShape} {p : Chord} :
    chordIn? members l = some p ↔
      members[p.1]? = some l.source ∧ members[p.2]? = some l.target := by
  rw [← CyclicOrder.idxOf?_eq_iff hmembers, ← CyclicOrder.idxOf?_eq_iff hmembers, chordIn?]
  cases members.idxOf? l.source with
  | none => simp
  | some a =>
    cases members.idxOf? l.target with
    | none => simp
    | some b => simp [Prod.ext_iff]

theorem chordsIn_lt {p : Chord} (hp : p ∈ chordsIn members links) :
    p.1 < members.length ∧ p.2 < members.length := by
  obtain ⟨l, -, hl⟩ := List.mem_filterMap.mp hp
  exact chordIn?_lt hl

/-- Two members are adjacent where a chord joins their positions. -/
theorem linkGraph_adj (hmembers : members.Nodup) {i j u v : Nat} (hu : members[i]? = some u)
    (hv : members[j]? = some v) : (linkGraph members links).Adj u v ↔
      u ≠ v ∧ ((i, j) ∈ chordsIn members links ∨ (j, i) ∈ chordsIn members links) := by
  have hchord : ∀ {i j u v : Nat}, members[i]? = some u → members[j]? = some v →
      ((u ∈ members ∧ v ∈ members ∧ ∃ l ∈ links, l.source = u ∧ l.target = v) ↔
        (i, j) ∈ chordsIn members links) := by
    intro i j u v hu hv
    rw [chordsIn, List.mem_filterMap]
    constructor
    · rintro ⟨-, -, l, hl, rfl, rfl⟩
      exact ⟨l, hl, (chordIn?_eq_some_iff hmembers).mpr ⟨hu, hv⟩⟩
    · rintro ⟨l, hl, hchord⟩
      obtain ⟨hsource, htarget⟩ := (chordIn?_eq_some_iff hmembers).mp hchord
      refine ⟨List.mem_of_getElem? hu, List.mem_of_getElem? hv, l, hl, ?_, ?_⟩
      · exact Option.some.inj (hsource.symm.trans hu)
      · exact Option.some.inj (htarget.symm.trans hv)
  rw [linkGraph, SimpleGraph.fromRel_adj, hchord hu hv, hchord hv hu]

/-! ## Positions of positions -/

/-- The members in the order of their positions. -/
def listed (members order : List Nat) : List Nat := order.filterMap fun i => members[i]?

section Listed

variable (horder : order.Perm (List.range members.length))
include horder

theorem getElem?_listed (k : Nat) :
    (listed members order)[k]? = order[k]?.bind fun i => members[i]? := by
  have hlt : ∀ i ∈ order, i < members.length := fun i hi =>
    List.mem_range.mp (horder.mem_iff.mp hi)
  have hmap : listed members order = order.map fun i => members.getD i 0 := by
    rw [listed, ← List.filterMap_eq_map]
    refine List.filterMap_congr fun i hi => ?_
    simp [List.getElem?_eq_getElem (hlt i hi)]
  rw [hmap, List.getElem?_map]
  cases hk : order[k]? with
  | none => rfl
  | some i => simp [List.getElem?_eq_getElem (hlt i (List.mem_of_getElem? hk))]

theorem listed_perm : (listed members order).Perm members := by
  have hperm := horder.filterMap fun i => members[i]?
  rwa [Drawing.filterMap_getElem?_range] at hperm

/-- A chord among the listed members is a chord among their positions. -/
theorem chordsIn_listed (hmembers : members.Nodup) (links : List LinkShape) :
    chordsIn (listed members order) links =
      (chordsIn members links).map (Arrangement.chordIn order) := by
  have hnodup : (listed members order).Nodup := (listed_perm horder).nodup_iff.mpr hmembers
  have hidx : ∀ v, (listed members order).idxOf? v = (members.idxOf? v).map order.idxOf := by
    intro v
    cases hv : members.idxOf? v with
    | none =>
        rw [List.idxOf?_eq_none_iff] at hv
        exact List.idxOf?_eq_none_iff.mpr fun hmem => hv ((listed_perm horder).mem_iff.mp hmem)
    | some i =>
        have hi := (CyclicOrder.idxOf?_eq_iff hmembers).mp hv
        have hmem : i ∈ order := horder.mem_iff.mpr
          (List.mem_range.mpr (List.getElem?_eq_some_iff.mp hi).1)
        refine (CyclicOrder.idxOf?_eq_iff hnodup).mpr ?_
        rw [getElem?_listed horder, List.getElem?_idxOf hmem]
        exact hi
  rw [chordsIn, chordsIn, List.map_filterMap]
  congr 1
  funext l
  simp only [chordIn?, hidx]
  cases members.idxOf? l.source <;> cases members.idxOf? l.target <;> rfl

end Listed

/-! ## The walk along a ring -/

/-- The positions of members in the order of a walk along their links. -/
def walked (members : List Nat) (links : List LinkShape) : List Nat :=
  Arrangement.walkOrder (Adjacency.ofPairs members.length (chordsIn members links))

theorem walked_perm (members : List Nat) (links : List LinkShape) :
    (walked members links).Perm (List.range members.length) := by
  have hwalk := Arrangement.walkOrder_perm (Adjacency.inRange_ofPairs
    fun p (hp : p ∈ chordsIn members links) => chordsIn_lt hp)
  rwa [Adjacency.size_ofPairs] at hwalk

/-- The walk lists the members of a ring depth-first. -/
theorem depthFirst_walked (hmembers : members.Nodup) (links : List LinkShape) :
    DepthFirst (linkGraph members links) (listed members (walked members links)) := by
  have hwalk := walked_perm members links
  have hjoins := fun {i j} => Adjacency.joins_ofPairs (u := i) (v := j)
    fun p (hp : p ∈ chordsIn members links) => chordsIn_lt hp
  intro i j k u v w hij hjk hu hv hw hadj
  rw [getElem?_listed hwalk, Option.bind_eq_some_iff] at hu hw
  obtain ⟨p, hp, hpu⟩ := hu
  obtain ⟨q, hq, hqv⟩ := Option.bind_eq_some_iff.mp ((getElem?_listed hwalk j).symm.trans hv)
  obtain ⟨r, hr, hrw⟩ := hw
  obtain ⟨m, x, him, hmj, hx, hxq⟩ := (Arrangement.walked_walkOrder _).exists_joins
    (hwalk.nodup_iff.mpr List.nodup_range) hij hjk hp hq hr
    (hjoins.mpr ((linkGraph_adj hmembers hpu hrw).mp hadj).2)
  have hlt : x < members.length :=
    List.mem_range.mp (hwalk.mem_iff.mp (List.mem_of_getElem? hx))
  have ht := List.getElem?_eq_getElem hlt
  have hlisted : (listed members (walked members links))[m]? = some members[x] := by
    rw [getElem?_listed hwalk, Option.bind_eq_some_iff]
    exact ⟨x, hx, ht⟩
  refine ⟨m, members[x], him, hmj, hlisted, (linkGraph_adj hmembers ht hqv).mpr ⟨?_, ?_⟩⟩
  · have hnodup := (listed_perm hwalk).nodup_iff.mpr hmembers
    exact ne_of_getElem? hnodup (Nat.ne_of_lt hmj) hlisted hv
  · exact hjoins.mp hxq

/-- Trees and cycles have no crossings after the walk. -/
theorem crossings_walked (hmembers : members.Nodup)
    (htrees : TreesAndCycles (linkGraph members links)) :
    Chord.crossings (chordsIn (listed members (walked members links)) links) = 0 := by
  have hperm := listed_perm (walked_perm members links)
  have hnodup := hperm.nodup_iff.mpr hmembers
  have halong : ∀ p ∈ chordsIn (listed members (walked members links)) links,
      AlongEdge (linkGraph members links) (listed members (walked members links)) p := by
    intro p hp
    obtain ⟨l, hl, hchord⟩ := List.mem_filterMap.mp hp
    obtain ⟨hsource, htarget⟩ := (chordIn?_eq_some_iff hnodup).mp hchord
    refine ⟨l.source, l.target, hsource, htarget, fun hne => ?_⟩
    refine (SimpleGraph.fromRel_adj _ _ _).mpr ⟨hne, .inl ⟨?_, ?_, l, hl, rfl, rfl⟩⟩
    · exact hperm.mem_iff.mp (List.mem_of_getElem? hsource)
    · exact hperm.mem_iff.mp (List.mem_of_getElem? htarget)
  exact Chord.crossings_eq_zero fun p hp q hq => (halong p hp).crosses_eq_false (halong q hq)
    (depthFirst_walked hmembers links) hnodup htrees

/-- Refinement adds no crossings to those of the walk. -/
theorem crossings_arrange_le (hmembers : members.Nodup) (links : List LinkShape) :
    Chord.crossings (chordsIn (listed members
        (Arrangement.arrange members.length (chordsIn members links))) links) ≤
      Chord.crossings (chordsIn (listed members (walked members links)) links) := by
  have hchords := fun p (hp : p ∈ chordsIn members links) => chordsIn_lt hp
  have hwalk := walked_perm members links
  have hrefined := Arrangement.arrange_perm hchords
  rw [chordsIn_listed hrefined hmembers, chordsIn_listed hwalk hmembers,
    ← Arrangement.totalCrossings_eq hrefined hchords, ← Arrangement.totalCrossings_eq hwalk hchords]
  rcases Arrangement.refine_eq_or_lt (if 64 < members.length then 1 else 5) hwalk hchords with
    hsame | hlt
  · exact Nat.le_of_eq (congrArg (Arrangement.totalCrossings · _) hsame)
  · exact Nat.le_of_lt hlt

end Skeleton

namespace Drawing

variable {K : Type} [Scalar K] {members : Nat → List Nat} {d : Drawing K}

/-- The graph that the inner links of a ring make of its members. -/
def ringGraph (d : Drawing K) (c : Nat) : SimpleGraph Nat :=
  Skeleton.linkGraph (d.ring c).order ((d.ring c).innerLinks.map d.skeleton.link)

theorem arrangedOrder_eq (d : Drawing K) (c : Nat) :
    d.arrangedOrder c = Skeleton.listed (d.ring c).order
      (Arrangement.arrange (d.ring c).order.length
        (Skeleton.chordsIn (d.ring c).order ((d.ring c).innerLinks.map d.skeleton.link))) := by
  rw [arrangedOrder, Skeleton.listed, Skeleton.chordsIn, List.filterMap_map]
  rfl

theorem crossingCount_arrangeRing (h : d.skeleton.Seated members) (c : Nat) (separation : K) :
    (Run.arrangeRing d c separation).crossingCount c =
      Chord.crossings (Skeleton.chordsIn (d.arrangedOrder c)
        ((d.ring c).innerLinks.map d.skeleton.link)) := by
  rw [crossingCount_eq, skeleton_arrangeRing h, h.crossings_reorder (d.arrangedOrder_perm c),
    if_pos rfl]
  rfl

/-- A ring whose members form trees and cycles has no crossings once it is arranged. -/
theorem uncrossed_arrangeRing {g : Graph K} {o : Options K} {start : Drawing K}
    (h : build g o = .ok start) (ops : List (Operation K)) (c : Nat) (separation : K)
    (htrees : TreesAndCycles ((Operation.run ops start).ringGraph c)) :
    (Run.arrangeRing (Operation.run ops start) c separation).crossingCount c = 0 := by
  have hseated := Operation.seated_run (seated_build h) ops
  have hmembers := hseated.order_nodup c
  rw [crossingCount_arrangeRing hseated, arrangedOrder_eq]
  refine Nat.le_zero.mp ((Skeleton.crossings_arrange_le hmembers _).trans ?_)
  exact Nat.le_of_eq (Skeleton.crossings_walked hmembers htrees)

theorem treesAndCycles_crossedPairs :
    TreesAndCycles ((ofClusters crossedPairs oneRing [[0, 1, 2, 3]]).ringGraph 0) := by
  have hends : (((ofClusters crossedPairs oneRing [[0, 1, 2, 3]]).ring 0).innerLinks.map
      (ofClusters crossedPairs oneRing [[0, 1, 2, 3]]).skeleton.link).map
        (fun l => (l.source, l.target)) = [(0, 2), (1, 3)] := by decide +kernel
  have hadj : ∀ u v, ((ofClusters crossedPairs oneRing [[0, 1, 2, 3]]).ringGraph 0).Adj u v →
      (u, v) ∈ [(0, 2), (1, 3)] ∨ (v, u) ∈ [(0, 2), (1, 3)] := by
    intro u v huv
    rw [← hends]
    obtain ⟨-, ⟨-, -, l, hl, rfl, rfl⟩ | ⟨-, -, l, hl, rfl, rfl⟩⟩ :=
      (SimpleGraph.fromRel_adj _ _ _).mp huv
    · exact .inl (List.mem_map_of_mem hl)
    · exact .inr (List.mem_map_of_mem hl)
  refine .of_unique fun x y z hxy hxz => ?_
  have hxy := hadj x y hxy
  have hxz := hadj x z hxz
  simp only [List.mem_cons, List.not_mem_nil, Prod.mk.injEq, or_false] at hxy hxz
  omega

/-- The two links cross at first, and not any more in the order that the ring is given. -/
theorem uncrossed_arrangeRing_crossedPairs :
    ∃ start : Drawing Float, build crossedPairs oneRing = .ok start ∧
      TreesAndCycles (start.ringGraph 0) ∧ start.crossingCount 0 = 1 ∧
      (Run.arrangeRing start 0 20).crossingCount 0 = 0 :=
  ⟨_, build_crossedPairs, treesAndCycles_crossedPairs, by decide +kernel,
    uncrossed_arrangeRing build_crossedPairs [] 0 20 treesAndCycles_crossedPairs⟩

end Drawing

end RingLayout
