import Mathlib.Data.Sym.Sym2
import Mathlib.SetTheory.Cardinal.NatCard
import RingLayout.Drawing.Packing
import RingLayout.Placement
import RingLayout.Proofs.Wiring.Build

/-! # The quotient of a drawing by its rings

The roots of a drawing and the links between them are taken together in three places: to see
whether everything hangs together, to pack the components, and to place the rings. All three see
the nodes as they hang together by links and rings, and lose no link between two roots.
-/

namespace RingLayout

variable {K : Type} [Scalar K]

namespace Drawing

/-! ## Linked nodes -/

section Linked

variable (d : Drawing K)

/-- From a node to another along a link or within a ring. -/
inductive Hop : Nat → Nat → Prop
  | link {l : Link K} (hl : l ∈ d.links) : Hop l.source l.target
  | ring {u v c : Nat} (hu : u ∈ d.simulated) (hv : v ∈ d.simulated)
      (huc : (d.body u).role.ring? = some c) (hvc : (d.body v).role.ring? = some c) : Hop u v

/-- Simulated nodes that chains of hops join. -/
def linked : Setoid {v // v ∈ d.simulated} := (Relation.EqvGen.setoid d.Hop).comap Subtype.val

theorem toList_links : d.links.toList = (List.range d.links.size).map d.link := by
  refine List.ext_getElem (by simp) fun e he _ => ?_
  simp [link, Array.getElem?_eq_getElem (Array.length_toList ▸ he)]

theorem mem_links_iff {l : Link K} : l ∈ d.links ↔ ∃ e < d.links.size, d.link e = l := by
  rw [← Array.mem_toList_iff, toList_links, List.mem_map]
  simp only [List.mem_range]

theorem ring?_wiring (v : Nat) : d.skeleton.wiring.ring? v = (d.body v).role.ring? := by
  change (d.body v).role.place.ring? = _
  cases (d.body v).role <;> rfl

theorem hop_wiring : d.skeleton.wiring.Hop = d.Hop := by
  funext u v
  refine propext ⟨fun h => ?_, fun h => ?_⟩
  · cases h with
    | @link e he => exact .link (d.mem_links_iff.mpr ⟨e, he, rfl⟩)
    | ring hu hv huc hvc =>
        rw [ring?_wiring] at huc hvc
        exact .ring hu hv huc hvc
  · cases h with
    | link hl =>
        obtain ⟨e, he, rfl⟩ := d.mem_links_iff.mp hl
        exact Wiring.Hop.link (w := d.skeleton.wiring) he
    | ring hu hv huc hvc =>
        rw [← ring?_wiring] at huc hvc
        exact .ring hu hv huc hvc

theorem linked_wiring : d.skeleton.wiring.linked = d.linked := by
  rw [Wiring.linked, hop_wiring]
  rfl

theorem representative_wiring (v : Nat) :
    d.skeleton.wiring.representative v = d.representative v := by
  rw [Wiring.representative, ring?_wiring]
  rfl

theorem rootPairs_wiring : d.skeleton.wiring.rootPairs = d.rootPairs := by
  rw [Wiring.rootPairs, rootPairs, toList_links, List.filterMap_map]
  refine List.filterMap_congr fun e _ => ?_
  rw [Wiring.rootPair?, representative_wiring, representative_wiring]
  rfl

end Linked

variable {d : Drawing K}

/-- The ends of links have their roots. -/
theorem representative_mem (h : d.skeleton.wiring.Rooted) : ∀ l ∈ d.links,
    d.representative l.source ∈ d.roots ∧ d.representative l.target ∈ d.roots := by
  intro l hl
  obtain ⟨e, he, rfl⟩ := d.mem_links_iff.mp hl
  obtain ⟨hsource, htarget⟩ := h.ends_mem e he
  rw [← representative_wiring, ← representative_wiring]
  exact ⟨h.representative_mem _ hsource, h.representative_mem _ htarget⟩

/-- The only links without a pair are those within what one root stands for. -/
theorem rootPairs_eq (h : d.skeleton.wiring.Rooted) : d.rootPairs =
    (d.links.toList.filter fun l =>
      d.representative l.source ≠ d.representative l.target).map fun l =>
        (d.roots.idxOf (d.representative l.source), d.roots.idxOf (d.representative l.target)) := by
  have hidx : ∀ r ∈ d.roots, d.roots.idxOf? r = some (d.roots.idxOf r) := fun r hr =>
    (CyclicOrder.idxOf?_eq_iff h.roots_nodup).mpr (List.getElem?_idxOf hr)
  rw [rootPairs, ← List.filterMap_eq_map, List.filterMap_filter]
  refine List.filterMap_congr fun l hl => ?_
  obtain ⟨hsource, htarget⟩ := representative_mem h l (Array.mem_toList_iff.mp hl)
  dsimp only
  rw [hidx _ hsource, hidx _ htarget]
  by_cases heq : d.representative l.source = d.representative l.target <;> simp [heq]

theorem mem_rootPairs_iff (h : d.skeleton.wiring.Rooted) {p : Nat × Nat} :
    p ∈ d.rootPairs ↔ ∃ l ∈ d.links, d.representative l.source ≠ d.representative l.target ∧
      p = (d.roots.idxOf (d.representative l.source),
        d.roots.idxOf (d.representative l.target)) := by
  rw [rootPairs_eq h, List.mem_map]
  refine exists_congr fun l => ?_
  rw [List.mem_filter, Array.mem_toList_iff, decide_eq_true_iff, and_assoc, eq_comm (a := p)]

theorem rootPairs_lt (d : Drawing K) :
    ∀ p ∈ d.rootPairs, p.1 < d.roots.length ∧ p.2 < d.roots.length := by
  intro p hp
  obtain ⟨l, -, hl⟩ := List.mem_filterMap.mp hp
  dsimp only at hl
  split at hl
  next => cases hl
  next =>
    split at hl
    next i j hi hj =>
      cases hl
      obtain ⟨hi, -⟩ := List.idxOf?_eq_some_iff.mp hi
      obtain ⟨hj, -⟩ := List.idxOf?_eq_some_iff.mp hj
      exact ⟨hi, hj⟩
    next => cases hl

omit [Scalar K] in
theorem getD_idxOf_roots {r : Nat} (hr : r ∈ d.roots) :
    d.roots.getD (d.roots.idxOf r) 0 = r := by
  rw [List.getD_eq_getElem?_getD, List.getElem?_idxOf hr]
  rfl

/-! ## Components -/

theorem classes_rootComponents (d : Drawing K) :
    Adjacency.Classes (Adjacency.ofPairs d.roots.length d.rootPairs) (· < d.roots.length)
      d.rootComponents :=
  Adjacency.classes_ofPairs d.rootPairs_lt

theorem length_rootComponents (h : d.skeleton.wiring.Rooted) :
    d.rootComponents.length = Nat.card (Quotient d.linked) := by
  rw [rootComponents, ← rootPairs_wiring, ← linked_wiring]
  exact h.length_components

/-- The roots hang together when all nodes do. -/
theorem rootIsConnected_iff (h : d.skeleton.wiring.Rooted) :
    d.rootIsConnected = true ↔ ∀ u v, d.linked u v := by
  rw [rootIsConnected, decide_eq_true_iff, length_rootComponents h,
    Finite.card_le_one_iff_subsingleton]
  constructor
  · intro hsubsingleton u v
    exact Quotient.exact (hsubsingleton.elim _ _)
  · intro hall
    exact ⟨Quotient.ind₂ fun u v => Quotient.sound (hall u v)⟩

/-! ## Packing -/

section Packing

variable (hfinite : ∀ x : K, Scalar.isFinite x = true)
include hfinite

theorem isSome_cover? {boxes : List (Box K)} (hboxes : boxes ≠ []) :
    (Extent.cover? boxes).isSome = true := by
  obtain ⟨b, rest, rfl⟩ := List.exists_cons_of_ne_nil hboxes
  simp [Extent.cover?, Extent.isFinite, hfinite]

theorem isSome_rootsExtent? {roots : List Nat} (hroots : roots ≠ []) :
    (d.rootsExtent? roots).isSome = true := by
  obtain ⟨v, rest, rfl⟩ := List.exists_cons_of_ne_nil hroots
  refine isSome_cover? hfinite ?_
  rw [List.flatMap_cons, boxesAt]
  split <;> simp

/-- Where all numbers are finite, no component is left out. -/
theorem length_componentExtents (d : Drawing K) :
    d.componentExtents.length = d.rootComponents.length := by
  rw [componentExtents, List.filterMap_length_eq_length]
  intro component hcomponent
  obtain ⟨u, -, hmem⟩ := d.classes_rootComponents.class_of component hcomponent
  have hne : component ≠ [] := List.ne_nil_of_mem ((hmem u).mpr Relation.ReflTransGen.refl)
  rw [Option.isSome_map]
  exact isSome_rootsExtent? hfinite (by simpa using hne)

theorem packComponents_fst (d : Drawing K) (spacing : K) :
    (d.packComponents spacing).1 = d.rootComponents.length := by
  rw [packComponents]
  split
  next hfew => exact (d.classes_rootComponents.length_eq_of_lt_two hfew).symm
  next =>
    dsimp only
    split
    next => rfl
    next hmany =>
      have hlength : (d.componentExtents.mergeSort fun a b =>
          Scalar.sortLe a.1.minX b.1.minX).length = d.rootComponents.length := by
        rw [List.length_mergeSort, length_componentExtents hfinite]
      split
      next hnil =>
        rw [hnil] at hlength
        exact hlength
      next => exact hlength

end Packing

end Drawing

/-! ## Springs -/

namespace Placement

/-- Pairs without the order of their ends. -/
def unordered (pairs : List (Nat × Nat)) : List (Sym2 Nat) := pairs.map fun p => s(p.1, p.2)

theorem mem_unordered_iff {pairs : List (Nat × Nat)} {a b : Nat} :
    s(a, b) ∈ unordered pairs ↔ (a, b) ∈ pairs ∨ (b, a) ∈ pairs := by
  rw [unordered, List.mem_map]
  constructor
  · rintro ⟨⟨c, e⟩, hp, heq⟩
    rcases Sym2.eq_iff.mp heq with ⟨rfl, rfl⟩ | ⟨rfl, rfl⟩
    · exact Or.inl hp
    · exact Or.inr hp
  · rintro (hp | hp)
    · exact ⟨_, hp, rfl⟩
    · exact ⟨_, hp, Sym2.eq_swap⟩

theorem mem_unordered_cons {p : Nat × Nat} {pairs : List (Nat × Nat)} {z : Sym2 Nat} :
    z ∈ unordered (p :: pairs) ↔ z = s(p.1, p.2) ∨ z ∈ unordered pairs := by
  rw [unordered, List.map_cons, List.mem_cons]
  rfl

/-- A pair is kept unless it has been seen in this order or in the other. -/
theorem distinctPairs_cons (seen : List (Nat × Nat)) (p : Nat × Nat) (pairs : List (Nat × Nat)) :
    distinctPairs seen (p :: pairs) =
      if s(p.1, p.2) ∈ unordered seen then distinctPairs seen pairs
      else p :: distinctPairs (p :: seen) pairs := by
  have hstep : distinctPairs seen (p :: pairs) =
      if (p.1, p.2) ∈ seen ∨ (p.2, p.1) ∈ seen then distinctPairs seen pairs
      else p :: distinctPairs (p :: seen) pairs := rfl
  rw [hstep]
  exact if_congr mem_unordered_iff.symm rfl rfl

theorem distinctPairs_subset (seen pairs : List (Nat × Nat)) :
    distinctPairs seen pairs ⊆ pairs := by
  induction pairs generalizing seen with
  | nil => exact List.Subset.refl _
  | cons p pairs ih =>
      rw [distinctPairs_cons]
      split
      · exact List.subset_cons_of_subset p (ih seen)
      · exact List.cons_subset_cons p (ih _)

/-- Of all pairs that are not among those seen, one of either order is kept. -/
theorem mem_distinctPairs_iff {seen pairs : List (Nat × Nat)} {z : Sym2 Nat} :
    z ∈ unordered (distinctPairs seen pairs) ↔ z ∈ unordered pairs ∧ z ∉ unordered seen := by
  induction pairs generalizing seen with
  | nil => exact iff_of_false List.not_mem_nil fun h => List.not_mem_nil h.1
  | cons p pairs ih =>
      rw [distinctPairs_cons]
      split
      next hseen =>
        rw [ih, mem_unordered_cons, or_and_right]
        refine (or_iff_right ?_).symm
        rintro ⟨rfl, hnot⟩
        exact hnot hseen
      next hnew =>
        rw [mem_unordered_cons, ih, mem_unordered_cons, mem_unordered_cons, not_or, or_and_right]
        by_cases hz : z = s(p.1, p.2)
        · subst hz
          exact iff_of_true (Or.inl rfl) (Or.inl ⟨rfl, hnew⟩)
        · simp only [hz, false_or, not_false_iff, true_and, false_and]

theorem nodup_distinctPairs (seen pairs : List (Nat × Nat)) :
    (unordered (distinctPairs seen pairs)).Nodup := by
  induction pairs generalizing seen with
  | nil => exact List.nodup_nil
  | cons p pairs ih =>
      rw [distinctPairs_cons]
      split
      · exact ih seen
      · refine List.nodup_cons.mpr ⟨fun hmem => ?_, ih _⟩
        exact (mem_distinctPairs_iff.mp hmem).2 (mem_unordered_cons.mpr (Or.inl rfl))

/-- The roots that the springs join. -/
def joined (p : Placement K) : List (Sym2 Nat) :=
  p.springs.map fun (a, b, _) => s((p.items.getD a blank).root, (p.items.getD b blank).root)

variable {d : Drawing K} (o : Options K)

theorem joined_ofDrawing : (ofDrawing d o).joined =
    (unordered (distinctPairs [] d.rootPairs)).map (Sym2.map fun i => d.roots.getD i 0) := by
  have hroot : ∀ i, ((ofDrawing d o).items.getD i blank).root = d.roots.getD i 0 := by
    intro i
    simp only [ofDrawing, Array.getD_eq_getD_getElem?, List.getElem?_toArray, List.getElem?_map,
      List.getD_eq_getElem?_getD]
    cases d.roots[i]? <;> rfl
  rw [joined, unordered, List.map_map]
  simp only [hroot]
  rw [ofDrawing, List.map_map]
  rfl

theorem springs_lt : ∀ spring ∈ (ofDrawing d o).springs,
    spring.1 < (ofDrawing d o).items.size ∧ spring.2.1 < (ofDrawing d o).items.size := by
  intro spring hspring
  obtain ⟨p, hp, rfl⟩ := List.mem_map.mp hspring
  have hsize : (ofDrawing d o).items.size = d.roots.length := by simp [ofDrawing]
  rw [hsize]
  exact d.rootPairs_lt p (distinctPairs_subset _ _ hp)

/-- No two springs join the same roots. -/
theorem nodup_joined (h : d.skeleton.wiring.Rooted) : (ofDrawing d o).joined.Nodup := by
  have hinj : ∀ i < d.roots.length, ∀ j < d.roots.length,
      d.roots.getD i 0 = d.roots.getD j 0 → i = j := by
    intro i hi j hj heq
    simp only [List.getD_eq_getElem?_getD, List.getElem?_eq_getElem hi,
      List.getElem?_eq_getElem hj, Option.getD_some] at heq
    exact (h.roots_nodup.getElem_inj_iff).mp heq
  rw [joined_ofDrawing]
  refine (nodup_distinctPairs _ _).map_on fun y hy z hz heq => ?_
  obtain ⟨p, hp, rfl⟩ := List.mem_map.mp hy
  obtain ⟨q, hq, rfl⟩ := List.mem_map.mp hz
  obtain ⟨hp₁, hp₂⟩ := d.rootPairs_lt p (distinctPairs_subset _ _ hp)
  obtain ⟨hq₁, hq₂⟩ := d.rootPairs_lt q (distinctPairs_subset _ _ hq)
  rw [Sym2.map_mk, Sym2.map_mk, Sym2.eq_iff] at heq
  refine Sym2.eq_iff.mpr (heq.imp (fun heq => ?_) fun heq => ?_)
  · exact ⟨hinj _ hp₁ _ hq₁ heq.1, hinj _ hp₂ _ hq₂ heq.2⟩
  · exact ⟨hinj _ hp₁ _ hq₂ heq.1, hinj _ hp₂ _ hq₁ heq.2⟩

/-- Springs join the roots that stand for the ends of links. -/
theorem mem_joined_iff (h : d.skeleton.wiring.Rooted) {z : Sym2 Nat} :
    z ∈ (ofDrawing d o).joined ↔ ∃ l ∈ d.links,
      d.representative l.source ≠ d.representative l.target ∧
        z = s(d.representative l.source, d.representative l.target) := by
  have hends : ∀ l ∈ d.links, Sym2.map (fun i => d.roots.getD i 0)
      s(d.roots.idxOf (d.representative l.source), d.roots.idxOf (d.representative l.target)) =
        s(d.representative l.source, d.representative l.target) := by
    intro l hl
    obtain ⟨hsource, htarget⟩ := Drawing.representative_mem h l hl
    rw [Sym2.map_mk, Drawing.getD_idxOf_roots hsource, Drawing.getD_idxOf_roots htarget]
  rw [joined_ofDrawing, List.mem_map]
  constructor
  · rintro ⟨y, hy, rfl⟩
    obtain ⟨p, hp, rfl⟩ := List.mem_map.mp (mem_distinctPairs_iff.mp hy).1
    obtain ⟨l, hl, hne, rfl⟩ := (Drawing.mem_rootPairs_iff h).mp hp
    exact ⟨l, hl, hne, hends l hl⟩
  · rintro ⟨l, hl, hne, rfl⟩
    refine ⟨_, mem_distinctPairs_iff.mpr ⟨?_, List.not_mem_nil⟩, hends l hl⟩
    exact List.mem_map.mpr ⟨_, (Drawing.mem_rootPairs_iff h).mpr ⟨l, hl, hne, rfl⟩, rfl⟩

end Placement

namespace Drawing

/-- The roots of a drawing show how its nodes hang together. -/
structure SeenFromRoots (d : Drawing K) : Prop where
  representative_mem : ∀ l ∈ d.links,
    d.representative l.source ∈ d.roots ∧ d.representative l.target ∈ d.roots
  /-- Only links within what one root stands for are left out. -/
  rootPairs_eq : d.rootPairs =
    (d.links.toList.filter fun l =>
      d.representative l.source ≠ d.representative l.target).map fun l =>
        (d.roots.idxOf (d.representative l.source), d.roots.idxOf (d.representative l.target))
  rootIsConnected_iff : d.rootIsConnected = true ↔ ∀ u v, d.linked u v
  /-- Where all numbers are finite, packing counts the classes of linked nodes. -/
  packComponents_fst : (∀ x : K, Scalar.isFinite x = true) → ∀ spacing,
    (d.packComponents spacing).1 = Nat.card (Quotient d.linked)
  springs_lt : ∀ o, ∀ spring ∈ (Placement.ofDrawing d o).springs,
    spring.1 < (Placement.ofDrawing d o).items.size ∧
      spring.2.1 < (Placement.ofDrawing d o).items.size
  nodup_joined : ∀ o, (Placement.ofDrawing d o).joined.Nodup
  mem_joined_iff : ∀ o z, z ∈ (Placement.ofDrawing d o).joined ↔
    ∃ l ∈ d.links, d.representative l.source ≠ d.representative l.target ∧
      z = s(d.representative l.source, d.representative l.target)

theorem seenFromRoots_of_rooted {d : Drawing K} (h : d.skeleton.wiring.Rooted) :
    d.SeenFromRoots where
  representative_mem := representative_mem h
  rootPairs_eq := rootPairs_eq h
  rootIsConnected_iff := rootIsConnected_iff h
  packComponents_fst hfinite spacing :=
    (packComponents_fst hfinite d spacing).trans (length_rootComponents h)
  springs_lt o := Placement.springs_lt o
  nodup_joined o := Placement.nodup_joined o h
  mem_joined_iff o _ := Placement.mem_joined_iff o h

end Drawing

end RingLayout
