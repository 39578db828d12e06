import RingLayout.Proofs.Clusters
import RingLayout.Proofs.Seating
import RingLayout.Scalar.Double

/-! # Seating of a new drawing

A drawing is built with every member seated in its cluster's order, nobody inside, and the other
bodies free or set aside. So it is seated from the start.
-/

open scoped List

namespace RingLayout.Drawing

variable {K : Type} [Scalar K] (g : Graph K) (o : Options K) (cs : List (List Nat))

/-- The links of a new drawing. -/
def newLinks : List (Link K) :=
  (linkPairs (g.drawnNodes.map (·.id)) [] g.edges).map fun (a, b) =>
    ⟨a, b, commonRing? cs a b, o.effectiveEdgeLength⟩

theorem place_ofClusters (v : Nat) :
    (ofClusters g o cs).skeleton.place v =
      if v < g.drawnNodes.length then (roleOf cs (newLinks g o cs) v).place
      else if v < g.drawnNodes.length + cs.length then .hub (v - g.drawnNodes.length)
      else .free := by
  change (((ofClusters g o cs).bodies.getD v Body.blank).role).place = _
  simp only [ofClusters, Array.getD_eq_getD_getElem?, Array.getElem?_append, List.size_toArray,
    List.length_map, List.length_zipIdx, List.getElem?_toArray, List.getElem?_map,
    List.getElem?_zipIdx]
  split
  next hv =>
    rw [List.getElem?_eq_getElem hv]
    simp [nodeBody, Body.atRest, newLinks]
  next hv =>
    by_cases hc : v < g.drawnNodes.length + cs.length
    · have hlt : v - g.drawnNodes.length < cs.length := by omega
      rw [if_pos hc, List.getElem?_eq_getElem hlt]
      simp [Body.atRest, Role.place]
    · rw [if_neg hc, List.getElem?_eq_none (by omega)]
      rfl

theorem ring_ofClusters (c : Nat) :
    (ofClusters g o cs).skeleton.ring c =
      if c < cs.length then
        (ringOf (cs.getD c []) (g.drawnNodes.length + c) c (newLinks g o cs)).shape
      else (blankRing : Ring K).shape := by
  change ((ofClusters g o cs).rings.getD c blankRing).shape = _
  simp only [ofClusters, Array.getD_eq_getD_getElem?, List.getElem?_toArray, List.getElem?_map,
    List.getElem?_zipIdx]
  by_cases hc : c < cs.length
  · rw [if_pos hc, List.getD_eq_getElem?_getD, List.getElem?_eq_getElem hc]
    simp [newLinks]
  · rw [if_neg hc, List.getElem?_eq_none (Nat.le_of_not_lt hc)]
    rfl

theorem order_ofClusters (c : Nat) :
    ((ofClusters g o cs).skeleton.ring c).order = cs.getD c [] := by
  rw [ring_ofClusters]
  split
  · rfl
  next hc =>
    rw [List.getD_eq_getElem?_getD, List.getElem?_eq_none (Nat.le_of_not_lt hc)]
    rfl

theorem inside_ofClusters (c : Nat) : ((ofClusters g o cs).skeleton.ring c).inside = [] := by
  rw [ring_ofClusters]
  split <;> rfl

variable {g o cs}

theorem seat?_roleOf (links : List (Link K)) (v : Nat) :
    (roleOf cs links v).place.seat? =
      (clusterOf? cs v).map fun c => (c, (cs.getD c []).idxOf v) := by
  unfold roleOf
  cases clusterOf? cs v <;> rfl

/-- A new drawing seats a body where its cluster lists it. -/
theorem seat?_ofClusters (h : Disjoint g.drawnNodes.length cs) (v c i : Nat) :
    ((ofClusters g o cs).skeleton.place v).seat? = some (c, i) ↔ (cs.getD c [])[i]? = some v := by
  rw [place_ofClusters, CyclicOrder.getElem?_eq_some_iff (h.getD_nodup c)]
  have hmem : v ∈ cs.getD c [] → v < g.drawnNodes.length := fun hv =>
    h.lt v (clusterOf?_isSome_iff.mp (by rw [h.clusterOf?_eq_some_iff.mpr hv]; rfl))
  split
  next hv =>
    rw [seat?_roleOf, Option.map_eq_some_iff]
    constructor
    · rintro ⟨b, hb, heq⟩
      obtain ⟨rfl, hi⟩ := Prod.mk.injEq .. ▸ heq
      exact ⟨h.clusterOf?_eq_some_iff.mp hb, hi⟩
    · rintro ⟨hv, hi⟩
      exact ⟨c, h.clusterOf?_eq_some_iff.mpr hv, by rw [hi]⟩
  next hv =>
    have hnot : v ∉ cs.getD c [] := fun hmem' => hv (hmem hmem')
    split <;> simp only [Place.seat?, hnot, false_and, reduceCtorEq]

theorem place_ofClusters_ne_inside (v c : Nat) :
    (ofClusters g o cs).skeleton.place v ≠ .inside c := by
  rw [place_ofClusters]
  unfold roleOf
  split
  · split <;> exact Place.noConfusion
  · split <;> exact Place.noConfusion

/-- The members and the loose nodes are all nodes. -/
theorem flatten_append_loose (h : Disjoint n cs) :
    cs.flatten ++ ((List.range n).filter fun v => (clusterOf? cs v).isNone) ~ List.range n := by
  have hmembers : cs.flatten ~ (List.range n).filter fun v => (clusterOf? cs v).isSome := by
    refine (List.perm_ext_iff_of_nodup h.nodup (List.nodup_range.filter _)).mpr fun v => ?_
    rw [List.mem_filter, List.mem_range, clusterOf?_isSome_iff]
    exact ⟨fun hv => ⟨h.lt v hv, hv⟩, fun hv => hv.2⟩
  refine (hmembers.append_right _).trans ?_
  have hsplit := List.filter_append_perm (fun v => (clusterOf? cs v).isSome) (List.range n)
  simpa only [Option.not_isSome] using hsplit

/-- The members, the hubs and the loose nodes are all bodies. -/
theorem parts_ofClusters (h : Disjoint g.drawnNodes.length cs) :
    ((ofClusters g o cs).seated ++ (ofClusters g o cs).inside ++ (ofClusters g o cs).roots ++
      (ofClusters g o cs).tiled).Perm (List.range (ofClusters g o cs).bodies.size) := by
  have hsize : (ofClusters g o cs).bodies.size = g.drawnNodes.length + cs.length := by
    simp [ofClusters]
  have hhubs : (cs.zipIdx.map fun (p : List Nat × Nat) => g.drawnNodes.length + p.2) =
      (List.range cs.length).map (g.drawnNodes.length + ·) := by
    have hsnd : cs.zipIdx.map Prod.snd = List.range cs.length := by
      rw [List.zipIdx_map_snd, List.range_eq_range']
    rw [← hsnd, List.map_map]
    rfl
  rw [hsize, List.range_add, ← hhubs]
  simp only [ofClusters, List.append_nil]
  generalize hloose : (List.range g.drawnNodes.length).filter _ = loose
  generalize (cs.zipIdx.map _ : List Nat) = hubs
  have hnodes := flatten_append_loose h
  rw [hloose] at hnodes
  have hsplit : ∀ setAside : Nat → Bool,
      loose.filter (!setAside ·) ++ loose.filter setAside ~ loose := fun setAside =>
    List.perm_append_comm.trans (List.filter_append_perm setAside loose)
  calc cs.flatten ++ (hubs ++ loose.filter _) ++ loose.filter _
      ~ cs.flatten ++ (hubs ++ loose) := by
        rw [List.append_assoc, List.append_assoc]
        exact ((hsplit _).append_left hubs).append_left _
    _ ~ cs.flatten ++ (loose ++ hubs) := List.perm_append_comm.append_left _
    _ ~ List.range g.drawnNodes.length ++ hubs := by
        rw [← List.append_assoc]
        exact hnodes.append_right hubs

/-- Both ends of an inner link are members of its ring. -/
theorem ends_ofClusters (h : Disjoint g.drawnNodes.length cs) (c : Nat) :
    ∀ e ∈ ((ofClusters g o cs).skeleton.ring c).innerLinks,
      ((ofClusters g o cs).skeleton.link e).source ∈ cs.getD c [] ∧
        ((ofClusters g o cs).skeleton.link e).target ∈ cs.getD c [] := by
  intro e he
  rw [ring_ofClusters] at he
  split at he
  next hc =>
    obtain ⟨⟨l, e⟩, hmem, rfl⟩ := List.mem_map.mp he
    obtain ⟨hzip, hring⟩ := List.mem_filter.mp hmem
    have hl := List.mem_zipIdx_iff_getElem?.mp hzip
    have hlink : (ofClusters g o cs).link e = l := by
      change ((newLinks g o cs).toArray.getD e blankLink) = l
      rw [Array.getD_eq_getD_getElem?, List.getElem?_toArray, hl]
      rfl
    obtain ⟨⟨a, b⟩, -, rfl⟩ := List.mem_map.mp (List.mem_of_getElem? hl)
    change ((ofClusters g o cs).link e).source ∈ _ ∧ ((ofClusters g o cs).link e).target ∈ _
    rw [hlink]
    have hcommon : commonRing? cs a b = some c := eq_of_beq hring
    unfold commonRing? at hcommon
    split at hcommon
    next x y hx hy =>
      split at hcommon
      next hxy =>
        cases hcommon
        exact ⟨h.clusterOf?_eq_some_iff.mp hx, h.clusterOf?_eq_some_iff.mp (hxy ▸ hy)⟩
      next => cases hcommon
    next => cases hcommon
  next => cases he

/-- The drawing of disjoint clusters is seated, each ring with its cluster. -/
theorem seated_ofClusters (h : Disjoint g.drawnNodes.length cs) :
    (ofClusters g o cs).skeleton.Seated fun c => cs.getD c [] := by
  constructor
  case seat_iff =>
    intro v c i
    rw [order_ofClusters]
    exact seat?_ofClusters h v c i
  case inside_iff =>
    intro v c
    rw [inside_ofClusters]
    simp [place_ofClusters_ne_inside]
  case members_perm =>
    intro c
    rw [order_ofClusters, inside_ofClusters, List.append_nil]
  case members_nodup => exact h.getD_nodup
  case mem_seated_iff =>
    intro v
    change v ∈ cs.flatten ↔ _
    rw [Option.isSome_iff_exists, List.mem_flatten]
    constructor
    · rintro ⟨members, hmembers, hv⟩
      obtain ⟨c, hc⟩ := List.getElem?_of_mem hmembers
      obtain ⟨i, hi⟩ := List.getElem?_of_mem hv
      refine ⟨(c, i), (seat?_ofClusters h v c i).mpr ?_⟩
      rw [List.getD_eq_getElem?_getD, hc]
      exact hi
    · rintro ⟨⟨c, i⟩, hseat⟩
      have hi := (seat?_ofClusters h v c i).mp hseat
      rw [List.getD_eq_getElem?_getD] at hi
      cases hc : cs[c]? with
      | none => simp [hc] at hi
      | some members =>
          rw [hc] at hi
          exact ⟨members, List.mem_of_getElem? hc, List.mem_of_getElem? hi⟩
  case mem_inside_iff =>
    intro v
    simp only [place_ofClusters_ne_inside, exists_false]
    exact List.mem_nil_iff v
  case parts_perm => exact parts_ofClusters h
  case ends_mem => exact ends_ofClusters h

/-- A drawing that has just been built is seated, each ring with the order it was built with. -/
theorem seated_build {d : Drawing K} (h : build g o = .ok d) :
    d.skeleton.Seated fun c => (d.ring c).order := by
  obtain ⟨-, -, h⟩ := bind_eq_ok h
  obtain ⟨cs, hcs, h⟩ := bind_eq_ok h
  cases h
  have horder : (fun c => ((ofClusters g o cs).ring c).order) = fun c => cs.getD c [] :=
    funext (order_ofClusters g o cs)
  rw [horder]
  exact seated_ofClusters (clusters_disjoint hcs)

/-- Four nodes with two links, and a fifth without any. -/
def crossedPairs : Graph Float where
  nodes := [⟨"a", 30, 20, none, none, false⟩, ⟨"b", 30, 20, none, none, false⟩,
    ⟨"c", 30, 20, none, none, false⟩, ⟨"d", 30, 20, none, none, false⟩,
    ⟨"e", 30, 20, none, none, false⟩]
  edges := [⟨"ac", "a", "c"⟩, ⟨"bd", "b", "d"⟩]

/-- The four linked nodes share a ring, on which the links cross. -/
def oneRing : Options Float :=
  { (Options.defaults : Options Float) with clustering := .cells [["a", "b", "c", "d"]] }

theorem build_crossedPairs :
    build crossedPairs oneRing = .ok (ofClusters crossedPairs oneRing [[0, 1, 2, 3]]) := rfl

end RingLayout.Drawing
