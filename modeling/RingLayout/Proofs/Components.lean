import Mathlib.Data.Finset.Card
import Mathlib.Data.List.Nodup
import Mathlib.Logic.Relation
import Mathlib.SetTheory.Cardinal.Finite
import RingLayout.Proofs.Arrangement

/-! # Components

A search settles whatever can be reached through unsettled indices. As long as no settled index
has an unsettled neighbour, it settles a whole component, so that one search after the other finds
all of them.
-/

namespace RingLayout.Adjacency

/-- An index that no search has come to. -/
def Unsettled (dist : Array (Option Nat)) (v : Nat) : Prop := dist[v]? = some none

instance (dist : Array (Option Nat)) : DecidablePred (Unsettled dist) := fun v =>
  inferInstanceAs (Decidable (dist[v]? = some none))

def unsettled (dist : Array (Option Nat)) : Finset Nat :=
  (Finset.range dist.size).filter (Unsettled dist)

theorem Unsettled.lt {dist : Array (Option Nat)} {v : Nat} (h : Unsettled dist v) :
    v < dist.size :=
  (Array.getElem?_eq_some_iff.mp h).1

theorem mem_unsettled {dist : Array (Option Nat)} {v : Nat} :
    v ∈ unsettled dist ↔ Unsettled dist v := by
  rw [unsettled, Finset.mem_filter, Finset.mem_range]
  exact ⟨fun h => h.2, fun h => ⟨h.lt, h⟩⟩

theorem not_unsettled_of_card {dist : Array (Option Nat)} (h : (unsettled dist).card = 0)
    (v : Nat) : ¬Unsettled dist v := fun hv =>
  Finset.notMem_empty v (Finset.card_eq_zero.mp h ▸ mem_unsettled.mpr hv)

theorem card_unsettled_lt {dist dist' : Array (Option Nat)} {v : Nat}
    (hsub : ∀ u, Unsettled dist' u → Unsettled dist u) (hv : Unsettled dist v)
    (hv' : ¬Unsettled dist' v) : (unsettled dist').card < (unsettled dist).card := by
  refine Finset.card_lt_card (Finset.ssubset_iff_of_subset ?_ |>.mpr ⟨v, ?_, ?_⟩)
  · exact fun u hu => mem_unsettled.mpr (hsub u (mem_unsettled.mp hu))
  · exact mem_unsettled.mpr hv
  · exact fun h => hv' (mem_unsettled.mp h)

theorem card_unsettled_le {dist : Array (Option Nat)} {n : Nat}
    (h : ∀ v, Unsettled dist v → v < n) : (unsettled dist).card ≤ n := by
  have hsub : unsettled dist ⊆ Finset.range n := fun v hv =>
    Finset.mem_range.mpr (h v (mem_unsettled.mp hv))
  simpa using Finset.card_le_card hsub

/-- Every index of the list that was unsettled has been settled, and no other. -/
structure Settles (vs : List Nat) (dist : Array (Option Nat)) (settled : List Nat)
    (dist' : Array (Option Nat)) : Prop where
  mem_iff : ∀ v, v ∈ settled ↔ v ∈ vs ∧ Unsettled dist v
  unsettled_iff : ∀ v, Unsettled dist' v ↔ Unsettled dist v ∧ v ∉ vs

theorem unsettled_setIfInBounds {dist : Array (Option Nat)} {v hops u : Nat} :
    Unsettled (dist.setIfInBounds v (some hops)) u ↔ Unsettled dist u ∧ u ≠ v := by
  rw [Unsettled, Array.getElem?_setIfInBounds]
  by_cases h : v = u
  · subst h
    by_cases hv : v < dist.size <;> simp [hv]
  · simp [h, Ne.symm h, Unsettled]

theorem settles_settle (hops : Nat) (vs : List Nat) (dist : Array (Option Nat)) :
    Settles vs dist (settle hops vs dist).1 (settle hops vs dist).2 := by
  induction vs generalizing dist with
  | nil => exact ⟨by simp [settle], by simp [settle]⟩
  | cons v vs ih =>
      rw [settle]
      split
      next hv =>
        obtain ⟨hmem, hunsettled⟩ := ih (dist.setIfInBounds v (some hops))
        simp only [unsettled_setIfInBounds] at hmem hunsettled
        refine ⟨fun u => ?_, fun u => ?_⟩
        · rw [List.mem_cons, List.mem_cons, hmem]
          by_cases hu : u = v
          · simp [hu, Unsettled, hv]
          · simp [hu]
        · rw [hunsettled, List.mem_cons, not_or, and_assoc]
      next hv =>
        obtain ⟨hmem, hunsettled⟩ := ih dist
        have hne : ∀ u, Unsettled dist u → u ≠ v := fun u hu heq => hv (heq ▸ hu)
        refine ⟨fun u => ?_, fun u => ?_⟩
        · rw [hmem, List.mem_cons]
          constructor
          · exact fun h => ⟨Or.inr h.1, h.2⟩
          · exact fun h => ⟨h.1.resolve_left (hne u h.2), h.2⟩
        · rw [hunsettled, List.mem_cons, not_or]
          exact ⟨fun h => ⟨h.1, hne u h.1, h.2⟩, fun h => ⟨h.1, h.2.2⟩⟩

/-- An index has another one for a neighbour. -/
def Joins (adj : Adjacency) (u v : Nat) : Prop := v ∈ adj.neighbors u

/-- A path leads from an index to another. -/
def Reaches (adj : Adjacency) : Nat → Nat → Prop := Relation.ReflTransGen adj.Joins

/-- What a search settles beyond a layer. -/
structure Searches (adj : Adjacency) (layer : List Nat) (dist : Array (Option Nat))
    (later : List Nat) (dist' : Array (Option Nat)) : Prop where
  of_mem : ∀ v ∈ later, Unsettled dist v ∧ ∃ u ∈ layer, adj.Reaches u v
  unsettled_iff : ∀ v, Unsettled dist' v ↔ Unsettled dist v ∧ v ∉ later
  /-- Nothing unsettled is left next to what has been settled. -/
  closed : ∀ u ∈ layer ++ later, ∀ v, adj.Joins u v → ¬Unsettled dist' v

/-- A search has layers enough if it has as many as there are unsettled indices. -/
theorem searches_search (adj : Adjacency) {layers : Nat} (hops : Nat) (layer : List Nat)
    {dist : Array (Option Nat)} (hlayers : (unsettled dist).card ≤ layers) :
    Searches adj layer dist (search adj layers hops layer dist).1
      (search adj layers hops layer dist).2 := by
  induction layers generalizing hops layer dist with
  | zero =>
      have hnone := not_unsettled_of_card (Nat.le_zero.mp hlayers)
      exact ⟨by simp [search], by simp [search], fun u _ v _ => hnone v⟩
  | succ layers ih =>
      obtain ⟨hmem, hunsettled⟩ := settles_settle (hops + 1) (layer.flatMap adj.neighbors) dist
      rw [search]
      generalize settle (hops + 1) (layer.flatMap adj.neighbors) dist = settled at *
      obtain ⟨next, dist₁⟩ := settled
      dsimp only at *
      have hjoined : ∀ u ∈ layer, ∀ v, adj.Joins u v → ¬Unsettled dist₁ v := by
        intro u hu v hv hv'
        exact ((hunsettled v).mp hv').2 (List.mem_flatMap.mpr ⟨u, hu, hv⟩)
      have hnext : ∀ v, Unsettled dist₁ v ↔ Unsettled dist v ∧ v ∉ next := by
        intro v
        rw [hunsettled, hmem]
        exact and_congr_right fun hopen => by rw [and_iff_left hopen]
      split
      next hempty =>
        have hnil : next = [] := List.isEmpty_iff.mp hempty
        rw [hnil] at hnext
        refine ⟨by simp, hnext, ?_⟩
        rw [List.append_nil]
        exact hjoined
      next hne =>
        obtain ⟨w, hw⟩ := List.exists_mem_of_ne_nil next (by simpa using hne)
        have hfewer : (unsettled dist₁).card < (unsettled dist).card :=
          card_unsettled_lt (fun u hu => ((hnext u).mp hu).1) ((hmem w).mp hw).2
            fun hw' => ((hnext w).mp hw').2 hw
        obtain ⟨hlater, hrest, hclosed⟩ :=
          ih (hops + 1) next (Nat.le_of_lt_succ (hfewer.trans_le hlayers))
        refine ⟨fun v hv => ?_, fun v => ?_, fun u hu v hv => ?_⟩
        · rcases List.mem_append.mp hv with hv | hv
          · obtain ⟨hv, hopen⟩ := (hmem v).mp hv
            obtain ⟨u, hu, hjoins⟩ := List.mem_flatMap.mp hv
            exact ⟨hopen, u, hu, Relation.ReflTransGen.single hjoins⟩
          · obtain ⟨hopen, w, hw, hreaches⟩ := hlater v hv
            obtain ⟨u, hu, hjoins⟩ := List.mem_flatMap.mp ((hmem w).mp hw).1
            exact ⟨((hnext v).mp hopen).1, u, hu, Relation.ReflTransGen.head hjoins hreaches⟩
        · rw [hrest, hnext, List.mem_append, not_or, and_assoc]
        · rcases List.mem_append.mp hu with hu | hu
          · exact fun hv' => hjoined u hu v hv ((hrest v).mp hv').1
          · exact hclosed u hu v hv

/-! ## One component after the other -/

/-- Neighbours have each other, and all of them are indices. -/
structure Mutual (adj : Adjacency) : Prop where
  symm : ∀ u v, adj.Joins u v → adj.Joins v u
  inRange : adj.InRange

theorem Mutual.lt_of_reaches {adj : Adjacency} (hadj : adj.Mutual) {u v : Nat} (hu : u < adj.size)
    (h : adj.Reaches u v) : v < adj.size := by
  cases h with
  | refl => exact hu
  | tail _ hlast => exact hadj.inRange _ v hlast

theorem Mutual.reaches_symm {adj : Adjacency} (hadj : adj.Mutual) {u v : Nat}
    (h : adj.Reaches u v) : adj.Reaches v u := by
  have : Std.Symm adj.Joins := ⟨hadj.symm⟩
  exact symm_of (Relation.ReflTransGen adj.Joins) h

/-- No settled index has an unsettled neighbour. -/
def Closed (adj : Adjacency) (dist : Array (Option Nat)) : Prop :=
  ∀ u v, adj.Joins u v → Unsettled dist v → Unsettled dist u

/-- What a search from an index finds. -/
structure Finds (adj : Adjacency) (start : Nat) (dist : Array (Option Nat)) (found : List Nat)
    (dist' : Array (Option Nat)) : Prop where
  mem_iff : ∀ v, v ∈ found ↔ Unsettled dist start ∧ adj.Reaches start v
  unsettled_iff : ∀ v, Unsettled dist' v ↔ Unsettled dist v ∧ v ∉ found
  closed : adj.Closed dist'

/-- What is left is among the later starts. -/
theorem Finds.mem_starts {adj : Adjacency} {start : Nat} {dist dist' : Array (Option Nat)}
    {found starts : List Nat} (h : Finds adj start dist found dist')
    (hstarts : ∀ v, Unsettled dist v → v ∈ start :: starts) :
    ∀ v, Unsettled dist' v → v ∈ starts := by
  intro v hv
  obtain ⟨hopen, hnot⟩ := (h.unsettled_iff v).mp hv
  refine (List.mem_cons.mp (hstarts v hopen)).resolve_left fun heq => hnot ?_
  exact (h.mem_iff v).mpr ⟨heq ▸ hopen, heq ▸ Relation.ReflTransGen.refl⟩

theorem finds_searchFrom {adj : Adjacency} (hadj : adj.Mutual) (start : Nat)
    {dist : Array (Option Nat)} (hdist : ∀ v, Unsettled dist v → v < adj.size)
    (hclosed : adj.Closed dist) :
    Finds adj start dist (searchFrom adj start dist).1 (searchFrom adj start dist).2 := by
  obtain ⟨hfirst, hunsettled⟩ := settles_settle 0 [start] dist
  rw [searchFrom]
  generalize settle 0 [start] dist = settled at *
  obtain ⟨first, dist₁⟩ := settled
  dsimp only at *
  simp only [List.mem_singleton] at hfirst hunsettled
  have hlayers : (unsettled dist₁).card ≤ adj.size :=
    card_unsettled_le fun v hv => hdist v ((hunsettled v).mp hv).1
  obtain ⟨hlater, hrest, hnext⟩ := searches_search adj 0 first hlayers
  generalize search adj adj.size 0 first dist₁ = searched at *
  obtain ⟨later, dist₂⟩ := searched
  dsimp only at *
  have hopen : ∀ v, Unsettled dist₂ v ↔ Unsettled dist v ∧ v ∉ first ++ later := by
    intro v
    rw [hrest, hunsettled, List.mem_append, hfirst, not_or, and_assoc]
    exact and_congr_right fun hopen => by rw [and_iff_left hopen]
  have hfound : ∀ v ∈ first ++ later, Unsettled dist v := by
    intro v hv
    rcases List.mem_append.mp hv with hv | hv
    · exact ((hfirst v).mp hv).2
    · exact ((hunsettled v).mp (hlater v hv).1).1
  refine ⟨fun v => ⟨fun hv => ?_, ?_⟩, hopen, fun u v hjoins hv => ?_⟩
  · rcases List.mem_append.mp hv with hv | hv
    · obtain ⟨rfl, hstart⟩ := (hfirst v).mp hv
      exact ⟨hstart, Relation.ReflTransGen.refl⟩
    · obtain ⟨-, u, hu, hreaches⟩ := hlater v hv
      obtain ⟨rfl, hstart⟩ := (hfirst u).mp hu
      exact ⟨hstart, hreaches⟩
  · rintro ⟨hstart, hreaches⟩
    induction hreaches with
    | refl => exact List.mem_append_left _ ((hfirst start).mpr ⟨rfl, hstart⟩)
    | @tail u w _ hjoins hu =>
        -- what is joined to something found was unsettled with it, and is so no longer
        by_contra hw
        have hw' := hclosed w u (hadj.symm u w hjoins) (hfound u hu)
        exact hnext u hu w hjoins ((hopen w).mpr ⟨hw', hw⟩)
  · refine (hopen u).mpr ⟨hclosed u v hjoins ((hopen v).mp hv).1, fun hu => ?_⟩
    exact hnext u hu v hjoins hv

/-- What is reached from an unsettled index is unsettled as well. -/
theorem Closed.unsettled_of_reaches {adj : Adjacency} (hadj : adj.Mutual)
    {dist : Array (Option Nat)} (hclosed : adj.Closed dist) {u v : Nat} (hu : Unsettled dist u)
    (h : adj.Reaches u v) : Unsettled dist v := by
  induction h with
  | refl => exact hu
  | tail _ hjoins ih => exact hclosed _ _ (hadj.symm _ _ hjoins) ih

/-- Lists of indices that are the classes of all indices that fulfil a condition. -/
structure Classes (adj : Adjacency) (among : Nat → Prop) (comps : List (List Nat)) : Prop where
  class_of : ∀ comp ∈ comps, ∃ u, among u ∧ ∀ v, v ∈ comp ↔ adj.Reaches u v
  disjoint : comps.Pairwise List.Disjoint
  exists_mem : ∀ v, among v → ∃ comp ∈ comps, v ∈ comp

theorem classes_componentsAmong {adj : Adjacency} (hadj : adj.Mutual) (starts : List Nat)
    {dist : Array (Option Nat)} (hdist : ∀ v, Unsettled dist v → v < adj.size)
    (hclosed : adj.Closed dist) (hstarts : ∀ v, Unsettled dist v → v ∈ starts) :
    Classes adj (Unsettled dist) (componentsAmong adj starts dist) := by
  induction starts generalizing dist with
  | nil =>
      refine ⟨by simp [componentsAmong], List.Pairwise.nil, fun v hv => ?_⟩
      exact absurd (hstarts v hv) List.not_mem_nil
  | cons start starts ih =>
      have hfinds := finds_searchFrom hadj start hdist hclosed
      rw [componentsAmong]
      generalize searchFrom adj start dist = searched at *
      obtain ⟨found, dist'⟩ := searched
      dsimp only at *
      have hstarts' := hfinds.mem_starts hstarts
      obtain ⟨hfound, hunsettled, hclosed'⟩ := hfinds
      obtain ⟨hclass, hdisjoint, hexists⟩ :=
        ih (fun v hv => hdist v ((hunsettled v).mp hv).1) hclosed' hstarts'
      have hclass' : ∀ comp ∈ componentsAmong adj starts dist',
          ∃ u, Unsettled dist u ∧ ∀ v, v ∈ comp ↔ adj.Reaches u v := fun comp hcomp =>
        (hclass comp hcomp).imp fun u hu => ⟨((hunsettled u).mp hu.1).1, hu.2⟩
      split
      next hempty =>
        have hnil : found = [] := List.isEmpty_iff.mp hempty
        refine ⟨hclass', hdisjoint, fun v hv => hexists v ((hunsettled v).mpr ⟨hv, ?_⟩)⟩
        rw [hnil]
        exact List.not_mem_nil
      next hne =>
        obtain ⟨w, hw⟩ := List.exists_mem_of_ne_nil found (by simpa using hne)
        refine ⟨?_, List.pairwise_cons.mpr ⟨?_, hdisjoint⟩, fun v hv => ?_⟩
        · rintro comp (_ | ⟨_, hcomp⟩)
          · refine ⟨start, ((hfound w).mp hw).1, fun v => ?_⟩
            rw [List.mem_mergeSort, hfound]
            exact and_iff_right ((hfound w).mp hw).1
          · exact hclass' comp hcomp
        · intro comp hcomp v hv hv'
          obtain ⟨u, hu, hmem⟩ := hclass comp hcomp
          have hopen := hclosed'.unsettled_of_reaches hadj hu ((hmem v).mp hv')
          exact ((hunsettled v).mp hopen).2 (List.mem_mergeSort.mp hv)
        · by_cases hv' : v ∈ found
          · exact ⟨_, List.mem_cons_self, List.mem_mergeSort.mpr hv'⟩
          · obtain ⟨comp, hcomp, hmem⟩ := hexists v ((hunsettled v).mpr ⟨hv, hv'⟩)
            exact ⟨comp, List.mem_cons_of_mem _ hcomp, hmem⟩

/-- At first every index is unsettled. -/
theorem unsettled_replicate (n v : Nat) : Unsettled (Array.replicate n none) v ↔ v < n := by
  rw [Unsettled, Array.getElem?_replicate]
  simp

theorem Mutual.closed_replicate {adj : Adjacency} (hadj : adj.Mutual) :
    adj.Closed (Array.replicate adj.size none) := fun u v hjoins _ =>
  (unsettled_replicate _ u).mpr (hadj.inRange v u (hadj.symm u v hjoins))

/-- The components are the classes of indices that reach each other. -/
theorem classes_components {adj : Adjacency} (hadj : adj.Mutual) :
    Classes adj (· < adj.size) adj.components := by
  have hdist := unsettled_replicate adj.size
  have hclasses := classes_componentsAmong hadj (List.range adj.size)
    (fun v hv => (hdist v).mp hv) hadj.closed_replicate
    fun v hv => List.mem_range.mpr ((hdist v).mp hv)
  have hall : Unsettled (Array.replicate adj.size none) = (· < adj.size) :=
    funext fun v => propext (hdist v)
  rwa [hall] at hclasses

/-! ## Nothing is found twice -/

theorem nodup_settle (hops : Nat) (vs : List Nat) (dist : Array (Option Nat)) :
    (settle hops vs dist).1.Nodup := by
  induction vs generalizing dist with
  | nil => exact List.nodup_nil
  | cons v vs ih =>
      rw [settle]
      split
      next =>
        refine List.nodup_cons.mpr ⟨fun hv => ?_, ih _⟩
        obtain ⟨-, hopen⟩ := ((settles_settle hops vs _).mem_iff v).mp hv
        exact (unsettled_setIfInBounds.mp hopen).2 rfl
      next => exact ih dist

theorem nodup_search (adj : Adjacency) {layers : Nat} (hops : Nat) (layer : List Nat)
    {dist : Array (Option Nat)} (hlayers : (unsettled dist).card ≤ layers) :
    (search adj layers hops layer dist).1.Nodup := by
  induction layers generalizing hops layer dist with
  | zero => exact List.nodup_nil
  | succ layers ih =>
      have hnext := nodup_settle (hops + 1) (layer.flatMap adj.neighbors) dist
      obtain ⟨hmem, hunsettled⟩ := settles_settle (hops + 1) (layer.flatMap adj.neighbors) dist
      rw [search]
      generalize settle (hops + 1) (layer.flatMap adj.neighbors) dist = settled at *
      obtain ⟨next, dist₁⟩ := settled
      dsimp only at *
      split
      next => exact List.nodup_nil
      next hne =>
        obtain ⟨w, hw⟩ := List.exists_mem_of_ne_nil next (by simpa using hne)
        obtain ⟨hw', hopen⟩ := (hmem w).mp hw
        have hfewer : (unsettled dist₁).card < (unsettled dist).card :=
          card_unsettled_lt (fun u hu => ((hunsettled u).mp hu).1) hopen
            fun hw₁ => ((hunsettled w).mp hw₁).2 hw'
        have hcard := Nat.le_of_lt_succ (hfewer.trans_le hlayers)
        refine List.nodup_append'.mpr ⟨hnext, ih (hops + 1) next hcard, fun v hv hlater => ?_⟩
        have hopen₁ := ((searches_search adj (hops + 1) next hcard).of_mem v hlater).1
        exact ((hunsettled v).mp hopen₁).2 ((hmem v).mp hv).1

theorem nodup_searchFrom (adj : Adjacency) (start : Nat) {dist : Array (Option Nat)}
    (hdist : ∀ v, Unsettled dist v → v < adj.size) : (searchFrom adj start dist).1.Nodup := by
  have hfirst := nodup_settle 0 [start] dist
  obtain ⟨hmem, hunsettled⟩ := settles_settle 0 [start] dist
  rw [searchFrom]
  generalize settle 0 [start] dist = settled at *
  obtain ⟨first, dist₁⟩ := settled
  dsimp only at *
  have hcard : (unsettled dist₁).card ≤ adj.size :=
    card_unsettled_le fun v hv => hdist v ((hunsettled v).mp hv).1
  refine List.nodup_append'.mpr ⟨hfirst, nodup_search adj 0 first hcard, fun v hv hlater => ?_⟩
  have hopen := ((searches_search adj 0 first hcard).of_mem v hlater).1
  exact ((hunsettled v).mp hopen).2 ((hmem v).mp hv).1

theorem nodup_componentsAmong {adj : Adjacency} (hadj : adj.Mutual) (starts : List Nat)
    {dist : Array (Option Nat)} (hdist : ∀ v, Unsettled dist v → v < adj.size)
    (hclosed : adj.Closed dist) : ∀ comp ∈ componentsAmong adj starts dist, comp.Nodup := by
  induction starts generalizing dist with
  | nil => simp [componentsAmong]
  | cons start starts ih =>
      have hnodup := nodup_searchFrom adj start hdist
      obtain ⟨-, hunsettled, hclosed'⟩ := finds_searchFrom hadj start hdist hclosed
      have hrest := ih (fun v hv => hdist v ((hunsettled v).mp hv).1) hclosed'
      rw [componentsAmong]
      dsimp only
      split
      · exact hrest
      · exact List.forall_mem_cons.mpr ⟨(List.mergeSort_perm _ _).nodup_iff.mpr hnodup, hrest⟩

/-- No component has an index twice. -/
theorem nodup_components {adj : Adjacency} (hadj : adj.Mutual) :
    ∀ comp ∈ adj.components, comp.Nodup :=
  nodup_componentsAmong hadj _ (fun v hv => (unsettled_replicate _ v).mp hv) hadj.closed_replicate

/-- There are as many components as there are classes of things that indices stand for. -/
theorem Classes.length_eq_card {adj : Adjacency} {n : Nat} {comps : List (List Nat)} {α : Type}
    {s : Setoid α} (h : Classes adj (· < n) comps) (index : α → Nat)
    (hindex : ∀ a, index a < n) (hsurj : ∀ i < n, ∃ a, index a = i)
    (hrel : ∀ a b, s a b ↔ adj.Reaches (index a) (index b)) :
    comps.length = Nat.card (Quotient s) := by
  -- something of every component stands for it
  have hstands : ∀ k : Fin comps.length, ∃ a, ∀ v, v ∈ comps[k] ↔ adj.Reaches (index a) v := by
    intro k
    obtain ⟨u, hu, hmem⟩ := h.class_of comps[k] (List.getElem_mem k.isLt)
    obtain ⟨a, rfl⟩ := hsurj u hu
    exact ⟨a, hmem⟩
  choose stands hstands using hstands
  have hbijective : Function.Bijective fun k => (Quotient.mk s (stands k)) := by
    constructor
    · intro j k heq
      have hreaches := (hrel _ _).mp (Quotient.exact heq)
      have hj : index (stands k) ∈ comps[j] := (hstands j _).mpr hreaches
      have hk : index (stands k) ∈ comps[k] := (hstands k _).mpr Relation.ReflTransGen.refl
      have hdisjoint := List.pairwise_iff_getElem.mp h.disjoint
      rcases Nat.lt_trichotomy j k with hlt | heq | hlt
      · exact absurd hk (hdisjoint j k j.isLt k.isLt hlt hj)
      · exact Fin.ext heq
      · exact absurd hj (hdisjoint k j k.isLt j.isLt hlt hk)
    · refine Quotient.ind fun a => ?_
      obtain ⟨comp, hcomp, hmem⟩ := h.exists_mem (index a) (hindex a)
      obtain ⟨k, hk, rfl⟩ := List.getElem_of_mem hcomp
      exact ⟨⟨k, hk⟩, Quotient.sound ((hrel _ _).mpr ((hstands ⟨k, hk⟩ _).mp hmem))⟩
  rw [← Nat.card_eq_of_bijective _ hbijective, Nat.card_fin]

/-- Fewer than two indices are components by themselves. -/
theorem Classes.length_eq_of_lt_two {adj : Adjacency} {n : Nat} {comps : List (List Nat)}
    (h : Classes adj (· < n) comps) (hn : n < 2) : comps.length = n := by
  have hzero : ∀ comp ∈ comps, 0 ∈ comp ∧ 0 < n := by
    intro comp hcomp
    obtain ⟨u, hu, hmem⟩ := h.class_of comp hcomp
    obtain rfl : u = 0 := by omega
    exact ⟨(hmem 0).mpr Relation.ReflTransGen.refl, hu⟩
  match comps, h, hzero with
  | [], h, _ =>
      by_contra hne
      obtain ⟨comp, hcomp, -⟩ := h.exists_mem 0 (Nat.pos_of_ne_zero (Ne.symm hne))
      exact List.not_mem_nil hcomp
  | [comp], _, hzero =>
      obtain ⟨-, hpos⟩ := hzero comp List.mem_cons_self
      rw [List.length_singleton]
      omega
  | first :: second :: _, h, hzero =>
      have hdisjoint := List.rel_of_pairwise_cons h.disjoint (List.mem_cons_self (a := second))
      exact absurd (hzero second (by simp)).1 (hdisjoint (hzero first List.mem_cons_self).1)

/-! ## Pairs -/

/-- The adjacency with a further pair. -/
def joinPair (adj : Adjacency) (p : Nat × Nat) : Adjacency :=
  (adj.modify p.1 (· ++ [p.2])).modify p.2 (· ++ [p.1])

theorem ofPairs_eq (n : Nat) (pairs : List (Nat × Nat)) :
    ofPairs n pairs = pairs.foldl joinPair (Array.replicate n []) := rfl

theorem size_joinPair (adj : Adjacency) (p : Nat × Nat) : (adj.joinPair p).size = adj.size := by
  simp [joinPair]

theorem joins_modify {adj : Adjacency} {a b : Nat} (ha : a < adj.size) (u v : Nat) :
    Joins (adj.modify a (· ++ [b])) u v ↔ adj.Joins u v ∨ u = a ∧ v = b := by
  simp only [Joins, neighbors, Array.getD_eq_getD_getElem?, Array.getElem?_modify]
  by_cases hu : u = a
  · subst hu
    simp [ha]
  · simp [hu, Ne.symm hu]

/-- A further pair joins its two indices. -/
theorem joins_joinPair {adj : Adjacency} {p : Nat × Nat} (hp : p.1 < adj.size ∧ p.2 < adj.size)
    (u v : Nat) : (adj.joinPair p).Joins u v ↔ adj.Joins u v ∨ (u, v) = p ∨ (v, u) = p := by
  have hsize : p.2 < Array.size (adj.modify p.1 (· ++ [p.2])) := by
    rw [Array.size_modify]
    exact hp.2
  rw [joinPair, joins_modify hsize, joins_modify hp.1, or_assoc, Prod.ext_iff, Prod.ext_iff,
    and_comm (a := u = p.2)]

theorem joins_foldl_joinPair {adj : Adjacency} {pairs : List (Nat × Nat)}
    (hpairs : ∀ p ∈ pairs, p.1 < adj.size ∧ p.2 < adj.size) (u v : Nat) :
    Joins (pairs.foldl joinPair adj) u v ↔
      adj.Joins u v ∨ (u, v) ∈ pairs ∨ (v, u) ∈ pairs := by
  induction pairs generalizing adj with
  | nil => simp
  | cons p pairs ih =>
      obtain ⟨hp, hrest⟩ := List.forall_mem_cons.mp hpairs
      rw [List.foldl_cons, ih (by rwa [size_joinPair]), joins_joinPair hp, List.mem_cons,
        List.mem_cons, or_assoc, or_or_or_comm]

/-- Indices are neighbours when a pair joins them. -/
theorem joins_ofPairs {n : Nat} {pairs : List (Nat × Nat)}
    (hpairs : ∀ p ∈ pairs, p.1 < n ∧ p.2 < n) (u v : Nat) :
    (ofPairs n pairs).Joins u v ↔ (u, v) ∈ pairs ∨ (v, u) ∈ pairs := by
  have hempty : ¬Joins (Array.replicate n []) u v := by
    rw [Joins, neighbors, Array.getD_eq_getD_getElem?, Array.getElem?_replicate]
    split <;> exact List.not_mem_nil
  rw [ofPairs_eq, joins_foldl_joinPair (by rwa [Array.size_replicate])]
  exact or_iff_right hempty

theorem mutual_ofPairs {n : Nat} {pairs : List (Nat × Nat)}
    (hpairs : ∀ p ∈ pairs, p.1 < n ∧ p.2 < n) : (ofPairs n pairs).Mutual where
  symm u v h := by
    rw [joins_ofPairs hpairs] at h ⊢
    exact h.symm
  inRange := inRange_ofPairs hpairs

/-- The components that pairs make are classes of all indices. -/
theorem classes_ofPairs {n : Nat} {pairs : List (Nat × Nat)}
    (hpairs : ∀ p ∈ pairs, p.1 < n ∧ p.2 < n) :
    Classes (ofPairs n pairs) (· < n) (ofPairs n pairs).components := by
  have hclasses := classes_components (mutual_ofPairs hpairs)
  rwa [size_ofPairs] at hclasses

/-- Indices that stand for things reach each other where chains of a relation join the things,
provided that the pairs are those of related things and that things of one index are joined. -/
theorem eqvGen_iff_reaches {α : Type} {R : α → α → Prop} (among : α → Prop) {index : α → Nat}
    {n : Nat} {pairs : List (Nat × Nat)} (hpairs : ∀ p ∈ pairs, p.1 < n ∧ p.2 < n)
    (hrel : ∀ a b, R a b → index a = index b ∨ (index a, index b) ∈ pairs)
    (hpair : ∀ p ∈ pairs, ∃ a b, among a ∧ among b ∧ R a b ∧ p = (index a, index b))
    (hsame : ∀ a b, among a → among b → index a = index b → Relation.EqvGen R a b) {a b : α}
    (ha : among a) (hb : among b) :
    Relation.EqvGen R a b ↔ (ofPairs n pairs).Reaches (index a) (index b) := by
  have hmutual := mutual_ofPairs hpairs
  have hjoins := joins_ofPairs hpairs
  constructor
  · intro hchain
    clear ha hb
    induction hchain with
    | rel a b hab =>
        rcases hrel a b hab with heq | hmem
        · rw [heq]
          exact Relation.ReflTransGen.refl
        · exact Relation.ReflTransGen.single ((hjoins _ _).mpr (Or.inl hmem))
    | refl a => exact Relation.ReflTransGen.refl
    | symm a b _ ih => exact hmutual.reaches_symm ih
    | trans a b c _ _ iha ihb => exact iha.trans ihb
  · intro hreaches
    generalize hi : index a = i at hreaches
    generalize hj : index b = j at hreaches
    induction hreaches generalizing b with
    | refl => exact hsame a b ha hb (hi.trans hj.symm)
    | @tail k j _ hstep ih =>
        -- the related things of the last pair, in one order or the other
        rcases (hjoins k j).mp hstep with hmem | hmem
        · obtain ⟨c, e, hc, he, hce, heq⟩ := hpair _ hmem
          obtain ⟨rfl, rfl⟩ := Prod.mk.injEq .. ▸ heq
          exact ((ih hc rfl).trans _ _ _ (.rel _ _ hce)).trans _ _ _ (hsame e b he hb hj.symm)
        · obtain ⟨c, e, hc, he, hce, heq⟩ := hpair _ hmem
          obtain ⟨rfl, rfl⟩ := Prod.mk.injEq .. ▸ heq
          exact ((ih he rfl).trans _ _ _ (.symm _ _ (.rel _ _ hce))).trans _ _ _
            (hsame c b hc hb hj.symm)

end RingLayout.Adjacency
