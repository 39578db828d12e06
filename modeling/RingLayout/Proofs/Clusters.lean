import Mathlib.Data.List.Nodup
import Mathlib.Data.List.Perm.Basic
import RingLayout.Drawing.Build

/-! # Clusters

However the members of the rings are given, by cells or by numbers, no drawn node is a member
twice. So every member has one ring, and one place in it.
-/

open scoped List

namespace RingLayout.Drawing

variable {K : Type}

/-- What a computation without error has gone through. -/
theorem bind_eq_ok {ε α β : Type} {x : Except ε α} {f : α → Except ε β} {b : β}
    (h : x >>= f = .ok b) : ∃ a, x = .ok a ∧ f a = .ok b := by
  cases x with
  | error e => cases h
  | ok a => exact ⟨a, rfl, h⟩

/-- Members that are drawn nodes, each of one cluster and there once. -/
structure Disjoint (n : Nat) (clusters : List (List Nat)) : Prop where
  nodup : clusters.flatten.Nodup
  lt : ∀ v ∈ clusters.flatten, v < n

theorem indexOf?_lt {ids : List String} {id : String} {v : Nat} (hv : indexOf? ids id = some v) :
    v < ids.length :=
  (List.idxOf?_eq_some_iff.mp hv).1

theorem lookup_eq_none_iff {owners : List (Nat × Nat)} {v : Nat} :
    owners.lookup v = none ↔ v ∉ owners.map Prod.fst := by
  rw [List.lookup_eq_none_iff]
  constructor
  · intro h hmem
    obtain ⟨p, hp, rfl⟩ := List.mem_map.mp hmem
    simpa using h p hp
  · intro h p hp
    have hne : v ≠ p.1 := fun heq => h (heq ▸ List.mem_map_of_mem hp)
    simpa using hne

/-- A cell has members that no cell had before it, and its members are owned after it. -/
theorem readCell_spec {g : Graph K} {ids : List String} {cell : Nat} {names : List String}
    {owners owners' : List (Nat × Nat)} {members : List Nat}
    (h : readCell g ids cell names owners = .ok (members, owners')) :
    members.Nodup ∧ (∀ v ∈ members, v ∉ owners.map Prod.fst ∧ v < ids.length) ∧
      (∀ v ∈ members, v ∈ owners'.map Prod.fst) ∧
      owners.map Prod.fst ⊆ owners'.map Prod.fst := by
  induction names generalizing owners members with
  | nil =>
      cases h
      exact ⟨List.nodup_nil, by simp, by simp, List.Subset.refl _⟩
  | cons id rest ih =>
      rw [readCell] at h
      split at h
      · split at h
        · exact ih h
        · cases h
      next v hv =>
        split at h
        · split at h
          · exact ih h
          · cases h
        next hnone =>
          obtain ⟨⟨later, last⟩, hrest, hlast⟩ := bind_eq_ok h
          cases hlast
          obtain ⟨hnodup, hnew, howned, hkept⟩ := ih hrest
          rw [List.map_cons] at hnew hkept
          have hv' : v ∉ owners.map Prod.fst := lookup_eq_none_iff.mp hnone
          refine ⟨List.nodup_cons.mpr ⟨fun hmem => ?_, hnodup⟩, ?_, ?_, ?_⟩
          · exact (hnew v hmem).1 List.mem_cons_self
          · intro u hu
            rcases List.mem_cons.mp hu with rfl | hu
            · exact ⟨hv', indexOf?_lt hv⟩
            · obtain ⟨hnot, hlt⟩ := hnew u hu
              exact ⟨fun hmem => hnot (List.mem_cons_of_mem v hmem), hlt⟩
          · intro u hu
            rcases List.mem_cons.mp hu with rfl | hu
            · exact hkept List.mem_cons_self
            · exact howned u hu
          · exact fun u hu => hkept (List.mem_cons_of_mem v hu)

/-- The cells from one on have members that no cell had before it. -/
theorem readCells_spec {g : Graph K} {ids : List String} {cell : Nat} {cells : List (List String)}
    {owners : List (Nat × Nat)} {clusters : List (List Nat)}
    (h : readCells g ids cell cells owners = .ok clusters) :
    Disjoint ids.length clusters ∧ ∀ v ∈ clusters.flatten, v ∉ owners.map Prod.fst := by
  induction cells generalizing cell owners clusters with
  | nil =>
      cases h
      exact ⟨⟨List.nodup_nil, by simp⟩, by simp⟩
  | cons names cells ih =>
      rw [readCells] at h
      obtain ⟨⟨members, owners'⟩, hcell, h⟩ := bind_eq_ok h
      obtain ⟨later, hrest, h⟩ := bind_eq_ok h
      obtain ⟨hnodup, hnew, howned, hkept⟩ := readCell_spec hcell
      obtain ⟨hlater, hfresh⟩ := ih hrest
      -- a cell without members of its own is no cluster
      have hflatten : clusters.flatten = members ++ later.flatten := by
        cases h
        cases members <;> rfl
      refine ⟨⟨?_, ?_⟩, ?_⟩
      · rw [hflatten]
        refine List.nodup_append.mpr ⟨hnodup, hlater.nodup, fun v hv u hu heq => ?_⟩
        exact hfresh u hu (heq ▸ howned v hv)
      · intro v hv
        rcases List.mem_append.mp (hflatten ▸ hv) with hv | hv
        · exact (hnew v hv).2
        · exact hlater.lt v hv
      · intro v hv
        rcases List.mem_append.mp (hflatten ▸ hv) with hv | hv
        · exact (hnew v hv).1
        · exact fun hmem => hfresh v hv (hkept hmem)

/-! ## Numbers -/

/-- A member is added at the end of a group. -/
theorem flatten_addTo (number : Int) (v : Nat) (groups : List (Int × List Nat)) :
    ((addTo number v groups).map (·.2)).flatten ~ v :: (groups.map (·.2)).flatten := by
  induction groups with
  | nil => exact .refl [v]
  | cons group rest ih =>
      obtain ⟨n, members⟩ := group
      rw [addTo]
      split
      · simp only [List.map_cons, List.flatten_cons, List.append_assoc]
        exact List.perm_middle
      · simp only [List.map_cons, List.flatten_cons]
        exact (ih.append_left members).trans List.perm_middle

/-- A loop that adds the members of a list to groups, or leaves them out. -/
theorem flatten_foldl (step : List (Int × List Nat) → Option Int × Nat → List (Int × List Nat))
    (hstep : ∀ groups p, ((step groups p).map (·.2)).flatten ~
        p.2 :: (groups.map (·.2)).flatten ∨ step groups p = groups)
    (l : List (Option Int × Nat)) (groups : List (Int × List Nat)) :
    ∃ added, added.Sublist (l.map Prod.snd) ∧
      ((l.foldl step groups).map (·.2)).flatten ~ added ++ (groups.map (·.2)).flatten := by
  induction l generalizing groups with
  | nil => exact ⟨[], .slnil, .refl _⟩
  | cons p l ih =>
      obtain ⟨added, hsub, hperm⟩ := ih (step groups p)
      rw [List.foldl_cons, List.map_cons]
      rcases hstep groups p with hadd | hsame
      · exact ⟨p.2 :: added, hsub.cons_cons p.2,
          (hperm.trans (hadd.append_left added)).trans List.perm_middle⟩
      · rw [hsame] at hperm ⊢
        exact ⟨added, hsub.cons p.2, hperm⟩

/-- Groups with one more node, if it has a number that counts. -/
def addClass (groups : List (Int × List Nat)) : Option Int × Nat → List (Int × List Nat)
  | (some n, v) => if 0 ≤ n then addTo n v groups else groups
  | (none, _) => groups

theorem classGroups_eq (numbers : List (Option Int)) :
    classGroups numbers = (numbers.zipIdx.foldl addClass []).map (·.2) := by
  unfold classGroups
  dsimp only
  congr 2
  funext groups p
  obtain ⟨number, v⟩ := p
  cases number <;> rfl

theorem flatten_addClass (groups : List (Int × List Nat)) (p : Option Int × Nat) :
    ((addClass groups p).map (·.2)).flatten ~ p.2 :: (groups.map (·.2)).flatten ∨
      addClass groups p = groups := by
  obtain ⟨number, v⟩ := p
  cases number with
  | none => exact Or.inr rfl
  | some n =>
      rw [addClass]
      split
      · exact Or.inl (flatten_addTo n v groups)
      · exact Or.inr rfl

/-- Groups by number have every numbered node once. -/
theorem classGroups_disjoint (numbers : List (Option Int)) :
    Disjoint numbers.length (classGroups numbers) := by
  obtain ⟨added, hsub, hperm⟩ := flatten_foldl addClass flatten_addClass numbers.zipIdx []
  have hrange : numbers.zipIdx.map Prod.snd = List.range numbers.length := by
    rw [List.zipIdx_map_snd, List.range_eq_range']
  rw [hrange] at hsub
  have hflatten : (classGroups numbers).flatten ~ added := by
    rw [List.map_nil, List.flatten_nil, List.append_nil] at hperm
    rw [classGroups_eq]
    exact hperm
  constructor
  · exact hflatten.nodup_iff.mpr (List.nodup_range.sublist hsub)
  · intro v hv
    exact List.mem_range.mp (hsub.subset (hflatten.mem_iff.mp hv))

/-- Whatever the clustering, clusters are disjoint. -/
theorem clusters_disjoint {g : Graph K} {clustering : Clustering K} {cs : List (List Nat)}
    (h : clusters g clustering = .ok cs) : Disjoint g.drawnNodes.length cs := by
  cases clustering with
  | none =>
      cases h
      exact ⟨List.nodup_nil, by simp⟩
  | cells cells =>
      have hcells := (readCells_spec h).1
      rwa [List.length_map] at hcells
  | classify number =>
      cases h
      have hgroups := classGroups_disjoint (g.drawnNodes.map number)
      rwa [List.length_map] at hgroups

/-! ## The cluster of a member -/

theorem clusterOf?_isSome_iff {cs : List (List Nat)} {v : Nat} :
    (clusterOf? cs v).isSome ↔ v ∈ cs.flatten := by
  rw [clusterOf?, List.findIdx?_isSome, List.mem_flatten]
  simp

namespace Disjoint

variable {n : Nat} {cs : List (List Nat)}

theorem getD_nodup (h : Disjoint n cs) (c : Nat) : (cs.getD c []).Nodup := by
  rw [List.getD_eq_getElem?_getD]
  cases hc : cs[c]? with
  | none => exact List.nodup_nil
  | some members => exact (List.nodup_flatten.mp h.nodup).1 members (List.mem_of_getElem? hc)

/-- A member has the cluster that lists it. -/
theorem clusterOf?_eq_some_iff (h : Disjoint n cs) {v c : Nat} :
    clusterOf? cs v = some c ↔ v ∈ cs.getD c [] := by
  rw [clusterOf?, List.findIdx?_eq_some_iff_getElem, List.getD_eq_getElem?_getD]
  constructor
  · rintro ⟨hc, hv, -⟩
    rw [List.getElem?_eq_getElem hc]
    exact List.contains_iff_mem.mp hv
  · intro hv
    cases hc : cs[c]? with
    | none =>
        rw [hc] at hv
        cases hv
    | some members =>
        rw [hc] at hv
        obtain ⟨hlt, rfl⟩ := List.getElem?_eq_some_iff.mp hc
        refine ⟨hlt, List.contains_iff_mem.mpr hv, fun b hb hmem => ?_⟩
        have hpair := (List.pairwise_iff_getElem.mp (List.nodup_flatten.mp h.nodup).2)
          b c (Nat.lt_trans hb hlt) hlt hb
        exact hpair (List.contains_iff_mem.mp hmem) hv

end Disjoint

end RingLayout.Drawing
