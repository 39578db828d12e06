import Mathlib.Data.List.Nodup
import Mathlib.Data.List.Perm.Basic
import RingLayout.Arrangement

/-! # Arrangements are permutations

The walk places every index once, and refinement only moves members about. So the arrangement of
the members of a ring lists each of them exactly once.
-/

open scoped List

namespace RingLayout

/-- Without repetitions a list has every element once. -/
theorem nodup_eraseDups {α : Type} [BEq α] [LawfulBEq α] (l : List α) : l.eraseDups.Nodup := by
  induction hlength : l.length using Nat.strongRecOn generalizing l with
  | _ n ih =>
      cases l with
      | nil => exact List.nodup_nil
      | cons a l =>
          have hshorter : (l.filter fun b => !b == a).length < n := by
            rw [← hlength, List.length_cons]
            exact Nat.lt_succ_of_le (List.length_filter_le _ l)
          rw [List.eraseDups_cons, List.nodup_cons]
          exact ⟨by simp, ih _ hshorter _ rfl⟩

theorem eraseDups_of_nodup {α : Type} [BEq α] [LawfulBEq α] {l : List α} (h : l.Nodup) :
    l.eraseDups = l := by
  induction l with
  | nil => rfl
  | cons a l ih =>
      obtain ⟨hnot, hrest⟩ := List.nodup_cons.mp h
      have hfilter : (l.filter fun b => !b == a) = l := by
        refine List.filter_eq_self.mpr fun b hb => ?_
        have hne : b ≠ a := fun heq => hnot (heq ▸ hb)
        simpa using hne
      rw [List.eraseDups_cons, hfilter, ih hrest]

theorem eraseDups_sublist {α : Type} [BEq α] [LawfulBEq α] (l : List α) :
    l.eraseDups.Sublist l := by
  induction hlength : l.length using Nat.strongRecOn generalizing l with
  | _ n ih =>
      cases l with
      | nil => exact List.nil_sublist []
      | cons a l =>
          have hshorter : (l.filter fun b => !b == a).length < n := by
            rw [← hlength, List.length_cons]
            exact Nat.lt_succ_of_le (List.length_filter_le _ l)
          rw [List.eraseDups_cons]
          exact ((ih _ hshorter _ rfl).trans List.filter_sublist).cons_cons a

namespace Adjacency

/-- All neighbours are indices of the graph. -/
def InRange (adj : Adjacency) : Prop := ∀ v, ∀ u ∈ adj.neighbors v, u < adj.size

theorem size_ofPairs (n : Nat) (pairs : List (Nat × Nat)) : (ofPairs n pairs).size = n := by
  refine List.foldlRecOn (motive := fun adj : Adjacency => adj.size = n) pairs _
    Array.size_replicate ?_
  intro adj hadj p _
  simp only [Array.size_modify, hadj]

theorem mem_neighbors_modify {adj : Adjacency} {a b v u : Nat}
    (hu : u ∈ neighbors (adj.modify a (· ++ [b])) v) : u ∈ adj.neighbors v ∨ u = b := by
  simp only [neighbors, Array.getD_eq_getD_getElem?, Array.getElem?_modify] at hu ⊢
  split at hu
  · cases hv : adj[v]? with
    | none => simp [hv] at hu
    | some l => simpa [hv] using hu
  · exact Or.inl hu

/-- Pairs of indices below `n` join indices below `n`. -/
theorem inRange_ofPairs {n : Nat} {pairs : List (Nat × Nat)}
    (hpairs : ∀ p ∈ pairs, p.1 < n ∧ p.2 < n) : (ofPairs n pairs).InRange := by
  have hmem : ∀ v, ∀ u ∈ (ofPairs n pairs).neighbors v, u < n := by
    refine List.foldlRecOn (motive := fun adj : Adjacency => ∀ v, ∀ u ∈ adj.neighbors v, u < n)
      pairs _ ?_ ?_
    · intro v u hu
      simp [neighbors, Array.getD_eq_getD_getElem?, Array.getElem?_replicate] at hu
      split at hu <;> simp at hu
    · intro adj hadj p hp v u hu
      obtain ⟨ha, hb⟩ := hpairs p hp
      rcases mem_neighbors_modify hu with hu | rfl
      · rcases mem_neighbors_modify hu with hu | rfl
        · exact hadj v u hu
        · exact hb
      · exact ha
  intro v u hu
  rw [size_ofPairs]
  exact hmem v u hu

theorem lowestDegree_mem (adj : Adjacency) (best : Nat) (vs : List Nat) :
    adj.lowestDegree best vs ∈ best :: vs := by
  induction vs generalizing best with
  | nil => exact List.mem_singleton_self best
  | cons v vs ih =>
      rw [lowestDegree]
      split
      · exact List.mem_cons_of_mem best (ih v)
      · exact List.cons_subset_cons best (List.subset_cons_self v vs) (ih best)

theorem lowestDegree_le (adj : Adjacency) (best : Nat) (vs : List Nat) :
    ∀ v ∈ best :: vs, adj.degree (adj.lowestDegree best vs) < adj.degree v ∨
      adj.degree (adj.lowestDegree best vs) = adj.degree v ∧ adj.lowestDegree best vs ≤ v := by
  induction vs generalizing best with
  | nil => simp [lowestDegree]
  | cons w vs ih =>
      rw [lowestDegree]
      -- the loser of a comparison is not below the winner, which is not below the final one
      split
      next hw =>
        obtain ⟨hbest, hrest⟩ := List.forall_mem_cons.mp (ih w)
        refine List.forall_mem_cons.mpr ⟨?_, List.forall_mem_cons.mpr ⟨hbest, hrest⟩⟩
        omega
      next hw =>
        obtain ⟨hbest, hrest⟩ := List.forall_mem_cons.mp (ih best)
        refine List.forall_mem_cons.mpr ⟨hbest, List.forall_mem_cons.mpr ⟨?_, hrest⟩⟩
        omega

end Adjacency

namespace Arrangement

open Adjacency

variable {adj : Adjacency}

/-! ## The walk -/

theorem mem_successors {placed : List Nat} {v u : Nat} (hu : u ∈ successors adj placed v) :
    u ∈ adj.neighbors v := by
  rw [successors, List.mem_eraseDups, List.mem_mergeSort] at hu
  exact List.mem_of_mem_filter hu

theorem nextStart?_spec {placed : List Nat} {v : Nat} (hv : nextStart? adj placed = some v) :
    v < adj.size ∧ v ∉ placed := by
  unfold nextStart? at hv
  split at hv
  · cases hv
  next w ws hrest =>
    have hmem := adj.lowestDegree_mem w ws
    rw [Option.some.inj hv, ← hrest] at hmem
    obtain ⟨hrange, hplaced⟩ := List.mem_filter.mp hmem
    exact ⟨List.mem_range.mp hrange, by simpa using hplaced⟩

theorem nextStart?_eq_none {placed : List Nat} (hnone : nextStart? adj placed = none) {v : Nat}
    (hv : v < adj.size) : v ∈ placed := by
  unfold nextStart? at hnone
  split at hnone
  next hrest =>
    by_contra hplaced
    have hmem : v ∈ (List.range adj.size).filter fun u => !placed.contains u :=
      List.mem_filter.mpr ⟨List.mem_range.mpr hv, by simpa using hplaced⟩
    rw [hrest] at hmem
    exact List.not_mem_nil hmem
  · cases hnone

/-- Distinct indices below `n` that include all of them are the range. -/
theorem perm_range {l : List Nat} {n : Nat} (hl : l.Nodup) (hmem : ∀ v, v ∈ l ↔ v < n) :
    l.Perm (List.range n) :=
  (List.perm_ext_iff_of_nodup hl List.nodup_range).mpr fun v => by rw [hmem, List.mem_range]

/-- Distinct indices below `n` are all of them when there are `n`. -/
theorem mem_of_length_eq {l : List Nat} {n : Nat} (hl : l.Nodup) (hlt : ∀ v ∈ l, v < n)
    (hlength : l.length = n) {v : Nat} (hv : v < n) : v ∈ l := by
  have hsub : l <+~ List.range n :=
    List.subperm_of_subset hl fun u hu => List.mem_range.mpr (hlt u hu)
  have hperm := hsub.perm_of_length_le (Nat.le_of_eq (List.length_range.trans hlength.symm))
  exact hperm.mem_iff.mpr (List.mem_range.mpr hv)

/-- The walk goes on from any distinct placed indices and ends with all of them. -/
theorem walk_perm (hadj : adj.InRange) (left : Nat) {placed stack : List Nat}
    (hplaced : placed.Nodup) (hlt : ∀ v ∈ placed, v < adj.size) (hstack : ∀ v ∈ stack, v < adj.size)
    (hleft : placed.length + left = adj.size) :
    (walk adj left placed stack).Perm (List.range adj.size) := by
  induction left generalizing placed stack with
  | zero =>
      rw [walk]
      refine perm_range (List.nodup_reverse.mpr hplaced) fun v => ?_
      rw [List.mem_reverse]
      exact ⟨hlt v, mem_of_length_eq hplaced hlt hleft⟩
  | succ left ih =>
      -- both ways on, from the stack and from a new start, place an index not placed before
      have hstep : ∀ v rest, v < adj.size → v ∉ placed → (∀ u ∈ rest, u < adj.size) →
          (walk adj left (v :: placed) (successors adj (v :: placed) v ++ rest)).Perm
            (List.range adj.size) := by
        intro v rest hv hnot hrest
        refine ih (List.nodup_cons.mpr ⟨hnot, hplaced⟩) ?_ ?_ ?_
        · simpa [hv] using hlt
        · intro u hu
          rcases List.mem_append.mp hu with hu | hu
          · exact hadj v u (mem_successors hu)
          · exact hrest u hu
        · rw [List.length_cons]
          omega
      rw [walk]
      split
      next v rest hdrop =>
        have hsub : ∀ u ∈ v :: rest, u < adj.size := fun u hu =>
          hstack u ((List.dropWhile_sublist _).subset (hdrop ▸ hu))
        have hnot : v ∉ placed := by
          have hhead := List.head?_dropWhile_not placed.contains stack
          rw [hdrop] at hhead
          simpa using hhead
        exact hstep v rest (hsub v List.mem_cons_self) hnot fun u hu =>
          hsub u (List.mem_cons_of_mem v hu)
      next =>
        split
        next v hnext =>
          obtain ⟨hv, hnot⟩ := nextStart?_spec hnext
          have hwalk := hstep v [] hv hnot (by simp)
          rwa [List.append_nil] at hwalk
        next hnone =>
          refine perm_range (List.nodup_reverse.mpr hplaced) fun v => ?_
          rw [List.mem_reverse]
          exact ⟨hlt v, nextStart?_eq_none hnone⟩

theorem walkOrder_perm (hadj : adj.InRange) : (walkOrder adj).Perm (List.range adj.size) :=
  walk_perm hadj adj.size List.nodup_nil (by simp) (by simp) (by simp)

/-! ## Refinement -/

theorem bestSlot?_mem {rest : List Nat} {edges : List (Nat × Nat)} {v bound slot : Nat}
    {slots : List Nat} (hslot : bestSlot? rest edges v bound slots = some slot) :
    slot ∈ slots := by
  induction slots generalizing bound with
  | nil => cases hslot
  | cons s slots ih =>
      rw [bestSlot?] at hslot
      split at hslot
      · split at hslot
        next better hbetter =>
          cases hslot
          exact List.mem_cons_of_mem s (ih hbetter)
        next =>
          cases hslot
          exact List.mem_cons_self
      · exact List.mem_cons_of_mem s (ih hslot)

/-- Moving one member keeps the members. -/
theorem improve_perm (edges : List (Nat × Nat)) (order : List Nat) (v : Nat) :
    (improve edges order v).Perm order := by
  unfold improve
  split
  next hv =>
    have hi : order.idxOf v < order.length :=
      List.idxOf_lt_length_of_mem (List.contains_iff_mem.mp hv)
    dsimp only
    split
    · exact .refl order
    · split
      next slot hslot =>
        have hrange := List.mem_range.mp (List.mem_of_mem_filter (bestSlot?_mem hslot))
        have hlength : slot ≤ (order.eraseIdx (order.idxOf v)).length := by
          rw [List.length_eraseIdx_of_lt hi]
          omega
        have hget : order[order.idxOf v] = v := List.getElem_idxOf hi
        have hback := List.getElem_cons_eraseIdx_perm hi
        rw [hget] at hback
        calc (order.eraseIdx (order.idxOf v)).insertIdx slot v
            ~ v :: order.eraseIdx (order.idxOf v) := List.perm_insertIdx v _ hlength
          _ ~ order := hback
      next => exact .refl order
  next => exact .refl order

theorem foldl_improve_perm (edges : List (Nat × Nat)) (members order : List Nat) :
    (members.foldl (improve edges) order).Perm order :=
  List.foldlRecOn (motive := fun next => next.Perm order) members _ (.refl order)
    fun next hnext v _ => (improve_perm edges next v).trans hnext

theorem improvePasses_perm (edges : List (Nat × Nat)) (passes : Nat) (order : List Nat) :
    (improvePasses edges passes order).Perm order := by
  induction passes generalizing order with
  | zero => exact .refl order
  | succ passes ih =>
      rw [improvePasses]
      split
      · exact .refl order
      · exact (ih _).trans (foldl_improve_perm edges _ order)

theorem refine_perm (order : List Nat) (edges : List (Nat × Nat)) (passes : Nat) :
    (refine order edges passes).Perm order := by
  unfold refine
  dsimp only
  split
  · exact .refl order
  · exact improvePasses_perm edges passes order

/-- An arrangement lists every member once. -/
theorem arrange_perm {members : Nat} {edges : List (Nat × Nat)}
    (hedges : ∀ e ∈ edges, e.1 < members ∧ e.2 < members) :
    (arrange members edges).Perm (List.range members) := by
  have hwalk := walkOrder_perm (inRange_ofPairs hedges)
  rw [size_ofPairs] at hwalk
  exact (refine_perm _ edges _).trans hwalk

end Arrangement

end RingLayout
