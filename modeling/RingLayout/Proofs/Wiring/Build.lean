import RingLayout.Proofs.Links.Views
import RingLayout.Proofs.Wiring.Roots

/-! # The wiring of a new drawing

Clusters have members, so that every hub of a new drawing stands for a node. All other roots are
nodes themselves, and no link ends at a node that is set aside.
-/

open scoped List

namespace RingLayout.Drawing

/-! ## Clusters have members -/

section Clusters

variable {K : Type}

theorem readCells_ne_nil {g : Graph K} {ids : List String} {cell : Nat}
    {cells : List (List String)} {owners : List (Nat × Nat)} {cs : List (List Nat)}
    (h : readCells g ids cell cells owners = .ok cs) : [] ∉ cs := by
  induction cells generalizing cell owners cs with
  | nil =>
      cases h
      exact List.not_mem_nil
  | cons names cells ih =>
      rw [readCells] at h
      obtain ⟨⟨members, owners'⟩, -, h⟩ := bind_eq_ok h
      obtain ⟨later, hrest, h⟩ := bind_eq_ok h
      cases h
      cases members with
      | nil => exact ih hrest
      | cons v members => simpa using ih hrest

theorem addTo_ne_nil {number : Int} {v : Nat} {groups : List (Int × List Nat)}
    (h : ∀ p ∈ groups, p.2 ≠ []) : ∀ p ∈ addTo number v groups, p.2 ≠ [] := by
  induction groups with
  | nil => simp [addTo]
  | cons group rest ih =>
      obtain ⟨hgroup, hrest⟩ := List.forall_mem_cons.mp h
      rw [addTo]
      split
      · exact List.forall_mem_cons.mpr ⟨by simp, hrest⟩
      · exact List.forall_mem_cons.mpr ⟨hgroup, ih hrest⟩

theorem classGroups_ne_nil (numbers : List (Option Int)) : [] ∉ classGroups numbers := by
  rw [classGroups_eq]
  have hgroups : ∀ p ∈ numbers.zipIdx.foldl addClass [], p.2 ≠ [] := by
    refine List.foldlRecOn (motive := fun groups : List (Int × List Nat) => ∀ p ∈ groups, p.2 ≠ [])
      _ _ (by simp) fun groups hgroups (number, v) _ => ?_
    cases number with
    | none => exact hgroups
    | some n =>
        rw [addClass]
        split
        · exact addTo_ne_nil hgroups
        · exact hgroups
  intro hmem
  obtain ⟨p, hp, hnil⟩ := List.mem_map.mp hmem
  exact hgroups p hp hnil

theorem clusters_ne_nil {g : Graph K} {clustering : Clustering K} {cs : List (List Nat)}
    (h : clusters g clustering = .ok cs) : [] ∉ cs := by
  cases clustering with
  | none =>
      cases h
      exact List.not_mem_nil
  | cells cells => exact readCells_ne_nil h
  | classify number =>
      cases h
      exact classGroups_ne_nil _

end Clusters

/-! ## Roots of a new drawing -/

variable {K : Type} [Scalar K] {g : Graph K} {o : Options K} {cs : List (List Nat)}

theorem ring?_ofClusters {v : Nat} (hv : v < g.drawnNodes.length) :
    (ofClusters g o cs).skeleton.wiring.ring? v = clusterOf? cs v := by
  change ((ofClusters g o cs).skeleton.place v).ring? = _
  rw [place_ofClusters, if_pos hv, roleOf]
  cases clusterOf? cs v <;> rfl

theorem hub_ofClusters {c : Nat} (hc : c < cs.length) :
    (ofClusters g o cs).skeleton.wiring.hub c = g.drawnNodes.length + c := by
  change ((ofClusters g o cs).skeleton.ring c).hub = _
  rw [ring_ofClusters, if_pos hc]
  rfl

/-- A node is represented by the hub of its ring, or by itself. -/
theorem representative_ofClusters (g : Graph K) (o : Options K) (cs : List (List Nat)) {v : Nat}
    (hv : v < g.drawnNodes.length) :
    (∃ c < cs.length, clusterOf? cs v = some c ∧
        (ofClusters g o cs).skeleton.wiring.representative v = g.drawnNodes.length + c) ∨
      clusterOf? cs v = none ∧ (ofClusters g o cs).skeleton.wiring.representative v = v := by
  rw [Wiring.representative, ring?_ofClusters hv]
  cases hc : clusterOf? cs v with
  | none => exact Or.inr ⟨rfl, rfl⟩
  | some c =>
      have hlt : c < cs.length := (List.findIdx?_eq_some_iff_getElem.mp hc).1
      exact Or.inl ⟨c, hlt, rfl, hub_ofClusters hlt⟩

omit [Scalar K] in
theorem mem_loose_iff {v : Nat} : v ∈ (List.range g.drawnNodes.length).filter
      (fun v => (clusterOf? cs v).isNone) ↔
    v < g.drawnNodes.length ∧ clusterOf? cs v = none := by
  rw [List.mem_filter, List.mem_range, Option.isNone_iff_eq_none]

theorem mem_roots_ofClusters {r : Nat} : r ∈ (ofClusters g o cs).roots ↔
    (∃ c < cs.length, r = g.drawnNodes.length + c) ∨
      r < g.drawnNodes.length ∧ clusterOf? cs r = none ∧ r ∉ (ofClusters g o cs).tiled := by
  have hhubs : r ∈ (cs.zipIdx.map fun (p : List Nat × Nat) => g.drawnNodes.length + p.2) ↔
      ∃ c < cs.length, r = g.drawnNodes.length + c := by
    constructor
    · intro hr
      obtain ⟨⟨members, c⟩, hp, rfl⟩ := List.mem_map.mp hr
      exact ⟨c, (List.getElem?_eq_some_iff.mp (List.mem_zipIdx_iff_getElem?.mp hp)).1, rfl⟩
    · rintro ⟨c, hc, rfl⟩
      refine List.mem_map.mpr ⟨(cs[c], c), ?_, rfl⟩
      exact List.mem_zipIdx_iff_getElem?.mpr (List.getElem?_eq_getElem hc)
  simp only [ofClusters, List.mem_append, hhubs, List.mem_filter, List.mem_range,
    Option.isNone_iff_eq_none]
  refine or_congr_right ?_
  cases (o.tile && _) <;> tauto

theorem mem_simulated_ofClusters {v : Nat} :
    v ∈ (ofClusters g o cs).skeleton.wiring.simulated ↔
      v < g.drawnNodes.length ∧ v ∉ (ofClusters g o cs).tiled := by
  rw [Wiring.simulated, List.mem_filter, List.mem_range]
  simp only [Bool.not_eq_true', List.contains_eq_mem, decide_eq_false_iff_not]
  rfl

theorem not_mem_tiled_of_clusterOf? {v c : Nat} (hc : clusterOf? cs v = some c) :
    v ∉ (ofClusters g o cs).tiled := by
  intro hv
  have hloose := (mem_loose_iff.mp (List.mem_of_mem_filter hv)).2
  rw [hc] at hloose
  cases hloose

theorem not_mem_tiled_of_link (h : Disjoint g.drawnNodes.length cs) {l : Link K}
    (hl : l ∈ newLinks g o cs) {v : Nat} (hv : l.Touches v) :
    v ∉ (ofClusters g o cs).tiled := by
  intro hmem
  cases htile : o.tile with
  | false =>
      have hnone : (ofClusters g o cs).tiled = [] := by simp [ofClusters, htile]
      rw [hnone] at hmem
      cases hmem
  | true =>
      exact (((listing_tiled h htile).mem_iff v).mp hmem).2.2 l (List.mem_toArray.mpr hl) hv

/-- In a new drawing every node has its root, and every root is there for a node. -/
theorem rooted_ofClusters (h : Disjoint g.drawnNodes.length cs) (hnil : [] ∉ cs) :
    (ofClusters g o cs).skeleton.wiring.Rooted := by
  constructor
  case ends_mem =>
    intro e he
    have hlink : (ofClusters g o cs).link e ∈ newLinks g o cs := by
      have he' : e < (ofClusters g o cs).links.size := he
      rw [link, Array.getD_eq_getD_getElem?, Array.getElem?_eq_getElem he', Option.getD_some]
      exact List.mem_toArray.mp (Array.getElem_mem he')
    obtain ⟨-, hsource, htarget, -⟩ := newLinks_spec hlink
    exact ⟨mem_simulated_ofClusters.mpr ⟨hsource, not_mem_tiled_of_link h hlink (Or.inl rfl)⟩,
      mem_simulated_ofClusters.mpr ⟨htarget, not_mem_tiled_of_link h hlink (Or.inr rfl)⟩⟩
  case representative_mem =>
    intro v hv
    obtain ⟨hlt, htiled⟩ := mem_simulated_ofClusters.mp hv
    refine mem_roots_ofClusters.mpr ?_
    rcases representative_ofClusters g o cs hlt with
      ⟨c, hc, -, heq⟩ | ⟨hfree, heq⟩
    · exact Or.inl ⟨c, hc, heq⟩
    · rw [heq]
      exact Or.inr ⟨hlt, hfree, htiled⟩
  case exists_representative =>
    intro r hr
    rcases mem_roots_ofClusters.mp hr with ⟨c, hc, rfl⟩ | ⟨hlt, hfree, htiled⟩
    · obtain ⟨v, hv⟩ := List.exists_mem_of_ne_nil cs[c] fun heq =>
        hnil (heq ▸ List.getElem_mem hc)
      have hmem : v ∈ cs.getD c [] := by
        rwa [List.getD_eq_getElem?_getD, List.getElem?_eq_getElem hc]
      have hcluster := h.clusterOf?_eq_some_iff.mpr hmem
      have hlt := h.lt v (List.mem_flatten_of_mem (List.getElem_mem hc) hv)
      refine ⟨v, mem_simulated_ofClusters.mpr ⟨hlt, not_mem_tiled_of_clusterOf? hcluster⟩, ?_⟩
      rw [Wiring.representative_of_ring? ((ring?_ofClusters hlt).trans hcluster),
        hub_ofClusters hc]
    · refine ⟨r, mem_simulated_ofClusters.mpr ⟨hlt, htiled⟩, ?_⟩
      rw [Wiring.representative, ring?_ofClusters hlt, hfree]
  case same_ring =>
    intro u hu v hv heq
    obtain ⟨hult, -⟩ := mem_simulated_ofClusters.mp hu
    obtain ⟨hvlt, -⟩ := mem_simulated_ofClusters.mp hv
    rw [ring?_ofClusters hult, ring?_ofClusters hvlt]
    rcases representative_ofClusters g o cs hult with
        ⟨b, -, hub, hub'⟩ | ⟨-, hu'⟩ <;>
      rcases representative_ofClusters g o cs hvlt with
        ⟨c, -, hvc, hvc'⟩ | ⟨-, hv'⟩
    · have hbc : b = c := by omega
      exact Or.inr ⟨b, hub, hbc ▸ hvc⟩
    · omega
    · omega
    · exact Or.inl (by omega)
  case roots_nodup =>
    have hparts := (seated_ofClusters (o := o) h).parts_perm.nodup_iff.mpr List.nodup_range
    exact (List.nodup_append.mp (List.nodup_append.mp hparts).1).2.1

theorem rooted_build {d : Drawing K} (h : build g o = .ok d) : d.skeleton.wiring.Rooted := by
  obtain ⟨⟨⟩, -, h⟩ := bind_eq_ok h
  obtain ⟨cs, hcs, h⟩ := bind_eq_ok h
  cases h
  exact rooted_ofClusters (clusters_disjoint hcs) (clusters_ne_nil hcs)

end RingLayout.Drawing
