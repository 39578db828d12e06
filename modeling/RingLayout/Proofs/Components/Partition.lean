import Mathlib.Data.List.Permutation
import Mathlib.Order.Bounds.Basic
import RingLayout.Proofs.Hops

/-! # The partition into components

Searches start in ascending order from what is still unsettled. So every component is found from its
smallest member, all of it at once, and what is found later is larger than the start.
-/

namespace RingLayout.Adjacency

/-- The smallest member of a list is below every member of the other one. -/
def Precedes (comp comp' : List Nat) : Prop :=
  ∃ u, IsLeast {v | v ∈ comp} u ∧ ∀ v ∈ comp', u < v

theorem sorted_componentsAmong (adj : Adjacency) (starts : List Nat) (dist : Array (Option Nat)) :
    ∀ comp ∈ componentsAmong adj starts dist, comp.Pairwise (· ≤ ·) := by
  induction starts generalizing dist with
  | nil => exact fun _ hcomp => absurd hcomp List.not_mem_nil
  | cons start starts ih =>
      rw [componentsAmong]
      dsimp only
      split
      · exact ih _
      · exact List.forall_mem_cons.mpr ⟨List.pairwise_mergeSort' (· ≤ ·) _, ih _⟩

theorem ascending_components {adj : Adjacency} (hadj : adj.Mutual) :
    ∀ comp ∈ adj.components, comp.Pairwise (· < ·) := by
  intro comp hcomp
  have hsorted := sorted_componentsAmong adj _ _ comp hcomp
  exact hsorted.imp₂ (fun _ _ => lt_of_le_of_ne) (nodup_components hadj comp hcomp)

/-- Starts that ascend are the smallest members of what is found from them. -/
theorem ordered_componentsAmong {adj : Adjacency} (hadj : adj.Mutual) {starts : List Nat}
    (hascending : starts.Pairwise (· < ·)) {dist : Array (Option Nat)}
    (hdist : ∀ v, Unsettled dist v → v < adj.size) (hclosed : adj.Closed dist)
    (hstarts : ∀ v, Unsettled dist v → v ∈ starts) :
    (componentsAmong adj starts dist).Pairwise Precedes := by
  induction starts generalizing dist with
  | nil => exact List.Pairwise.nil
  | cons start starts ih =>
      obtain ⟨hfirst, hascending⟩ := List.pairwise_cons.mp hascending
      have hfinds := finds_searchFrom hadj start hdist hclosed
      rw [componentsAmong]
      generalize searchFrom adj start dist = searched at *
      obtain ⟨found, dist'⟩ := searched
      dsimp only at *
      have hdist' : ∀ v, Unsettled dist' v → v < adj.size := fun v hv =>
        hdist v ((hfinds.unsettled_iff v).mp hv).1
      have hstarts' := hfinds.mem_starts hstarts
      have hrest := ih hascending hdist' hfinds.closed hstarts'
      split
      next => exact hrest
      next hne =>
        obtain ⟨w, hw⟩ := List.exists_mem_of_ne_nil found (by simpa using hne)
        have hopen := ((hfinds.mem_iff w).mp hw).1
        refine List.pairwise_cons.mpr ⟨fun comp hcomp => ⟨start, ⟨?_, fun v hv => ?_⟩, ?_⟩, hrest⟩
        · exact List.mem_mergeSort.mpr ((hfinds.mem_iff start).mpr ⟨hopen, .refl⟩)
        · have hreaches := ((hfinds.mem_iff v).mp (List.mem_mergeSort.mp hv)).2
          have hv' := hstarts v (hclosed.unsettled_of_reaches hadj hopen hreaches)
          rcases List.mem_cons.mp hv' with rfl | hv'
          · exact Nat.le_refl _
          · exact Nat.le_of_lt (hfirst v hv')
        · intro v hv
          have hclasses := classes_componentsAmong hadj starts hdist' hfinds.closed hstarts'
          obtain ⟨u, hu, hmem⟩ := hclasses.class_of comp hcomp
          exact hfirst v (hstarts' v (hfinds.closed.unsettled_of_reaches hadj hu ((hmem v).mp hv)))

/-- Lists that are the components of a graph, each of them and all of them in ascending order. -/
structure Partitions (adj : Adjacency) (comps : List (List Nat)) : Prop where
  /-- Every index is in one list, and there once. -/
  perm : comps.flatten.Perm (List.range adj.size)
  ne_nil : ∀ comp ∈ comps, comp ≠ []
  share_iff : ∀ u < adj.size, ∀ v < adj.size,
    (∃ comp ∈ comps, u ∈ comp ∧ v ∈ comp) ↔ adj.Reaches u v
  ascending : ∀ comp ∈ comps, comp.Pairwise (· < ·)
  ordered : comps.Pairwise Precedes

namespace Classes

variable {adj : Adjacency} {comps : List (List Nat)}

theorem ne_nil {among : Nat → Prop} (h : Classes adj among comps) : ∀ comp ∈ comps, comp ≠ [] := by
  rintro _ hcomp rfl
  obtain ⟨u, -, hmem⟩ := h.class_of [] hcomp
  exact List.not_mem_nil ((hmem u).mpr .refl)

theorem share_iff (h : Classes adj (· < adj.size) comps) (hadj : adj.Mutual) {u v : Nat}
    (hu : u < adj.size) : (∃ comp ∈ comps, u ∈ comp ∧ v ∈ comp) ↔ adj.Reaches u v := by
  constructor
  · rintro ⟨comp, hcomp, hu, hv⟩
    obtain ⟨w, -, hmem⟩ := h.class_of comp hcomp
    exact (hadj.reaches_symm ((hmem u).mp hu)).trans ((hmem v).mp hv)
  · intro hreaches
    obtain ⟨comp, hcomp, hu⟩ := h.exists_mem u hu
    obtain ⟨w, -, hmem⟩ := h.class_of comp hcomp
    exact ⟨comp, hcomp, hu, (hmem v).mpr (((hmem u).mp hu).trans hreaches)⟩

theorem flatten_perm (h : Classes adj (· < adj.size) comps) (hadj : adj.Mutual)
    (hnodup : ∀ comp ∈ comps, comp.Nodup) : comps.flatten.Perm (List.range adj.size) := by
  have hflat : comps.flatten.Nodup := List.nodup_flatten.mpr ⟨hnodup, h.disjoint⟩
  refine (List.perm_ext_iff_of_nodup hflat List.nodup_range).mpr fun v => ?_
  rw [List.mem_flatten, List.mem_range]
  constructor
  · rintro ⟨comp, hcomp, hv⟩
    obtain ⟨u, hu, hmem⟩ := h.class_of comp hcomp
    exact hadj.lt_of_reaches hu ((hmem v).mp hv)
  · exact h.exists_mem v

end Classes

theorem partitions_components {adj : Adjacency} (hadj : adj.Mutual) :
    Partitions adj adj.components := by
  have hclasses := classes_components hadj
  have hopen := unsettled_replicate adj.size
  have hdist : ∀ v, Unsettled (Array.replicate adj.size none) v → v < adj.size := fun v =>
    (hopen v).mp
  constructor
  case perm => exact hclasses.flatten_perm hadj (nodup_components hadj)
  case ne_nil => exact hclasses.ne_nil
  case share_iff => exact fun u hu v _ => hclasses.share_iff hadj hu
  case ascending => exact ascending_components hadj
  case ordered =>
    exact ordered_componentsAmong hadj List.pairwise_lt_range hdist hadj.closed_replicate
      fun v hv => List.mem_range.mpr (hdist v hv)

/-- What the searches for components find out about a graph. -/
structure FindsComponents (adj : Adjacency) : Prop extends Partitions adj adj.components where
  /-- A search ends by itself, not for lack of layers, whatever has been settled before. -/
  ends : ∀ (layers start : Nat) (dist : Array (Option Nat)), adj.size ≤ layers →
    dist.size = adj.size →
      search adj layers 0 (settle 0 [start] dist).1 (settle 0 [start] dist).2 =
        search adj adj.size 0 (settle 0 [start] dist).1 (settle 0 [start] dist).2

/-- In every graph whose neighbours have each other, with repetitions and loops, the searches find
the components. -/
theorem findsComponents {adj : Adjacency} (hadj : adj.Mutual) : FindsComponents adj where
  toPartitions := partitions_components hadj
  ends layers start dist hlayers hsize := by
    refine search_of_le adj 0 _ (card_unsettled_le fun v hv => ?_) hlayers
    have hlt := hv.lt
    rwa [size_settle, hsize] at hlt

/-- A pair that is joined twice, a path through its last index, which has a loop, and an index
without neighbours. -/
def pairAndPath : Adjacency := #[[3, 3], [4], [4], [0, 0], [2, 1, 4], []]

theorem findsComponents_pairAndPath : pairAndPath.Mutual ∧ FindsComponents pairAndPath ∧
    pairAndPath.components = [[0, 3], [1, 2, 4], [5]] := by
  have hrange : ∀ u v, pairAndPath.Joins u v → u < 6 := by
    intro u v hjoins
    by_contra hu
    have hnone : pairAndPath.neighbors u = [] := dif_neg hu
    rw [Joins, hnone] at hjoins
    exact List.not_mem_nil hjoins
  have hsymm : ∀ u < 6, ∀ v ∈ pairAndPath.neighbors u, v < 6 ∧ u ∈ pairAndPath.neighbors v := by
    decide
  have hmutual : pairAndPath.Mutual :=
    ⟨fun u v hjoins => (hsymm u (hrange u v hjoins) v hjoins).2,
      fun u v hjoins => (hsymm u (hrange u v hjoins) v hjoins).1⟩
  exact ⟨hmutual, findsComponents hmutual, by cbv⟩

end RingLayout.Adjacency
