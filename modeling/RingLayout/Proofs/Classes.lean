import RingLayout.Proofs.Cells
import RingLayout.Proofs.Guise
import RingLayout.Proofs.Quotient
import RingLayout.Proofs.Wiring.Build

/-! # Classes

Numbers given to the nodes make the same rings as cells that list the nodes of every number. The
numbers come in the order of the first nodes that have them, and negative ones do not count.
-/

namespace RingLayout

namespace Graph

variable {K : Type} (g : Graph K) (number : Node K → Option Int)

/-- The numbers that count, each where the first drawn node has it. -/
def classNumbers : List Int := ((g.drawnNodes.filterMap number).filter (0 ≤ ·)).eraseDups

/-- For every number that counts, the ids of the drawn nodes that have it. -/
def classCells : List (List String) :=
  (g.classNumbers number).map fun k =>
    (g.drawnNodes.filter fun n => number n = some k).map (·.id)

end Graph

namespace Drawing

/-! ## Groups -/

/-- The numbers of a list that count, in the order in which they come up. -/
def numbersOf (l : List (Option Int × Nat)) : List Int :=
  ((l.filterMap (·.1)).filter (0 ≤ ·)).eraseDups

/-- The entries that have a number. -/
def entriesWith (l : List (Option Int × Nat)) (k : Int) : List Nat :=
  (l.filter fun p => p.1 = some k).map (·.2)

/-- A number that is there gets the entry, and a new number comes last. -/
theorem addTo_map (members : Int → List Nat) (k : Int) (v : Nat) {keys : List Int}
    (hkeys : keys.Nodup) :
    addTo k v (keys.map fun j => (j, members j)) =
      if k ∈ keys then keys.map fun j => (j, if j = k then members j ++ [v] else members j)
      else keys.map (fun j => (j, members j)) ++ [(k, [v])] := by
  induction keys with
  | nil => rfl
  | cons j keys ih =>
      obtain ⟨hnot, hrest⟩ := List.nodup_cons.mp hkeys
      rw [List.map_cons, addTo, ih hrest]
      by_cases hj : j = k
      · subst hj
        have hsame : (keys.map fun i => (i, members i)) =
            keys.map fun i => (i, if i = j then members i ++ [v] else members i) :=
          List.map_congr_left fun i hi => by
            have hne : i ≠ j := fun heq => hnot (heq ▸ hi)
            rw [if_neg hne]
        rw [if_pos rfl, if_pos List.mem_cons_self, List.map_cons, if_pos rfl, hsame]
      · have hk : k ≠ j := fun heq => hj heq.symm
        simp only [hj, if_false, List.mem_cons, hk, false_or, List.map_cons]
        split <;> rfl

theorem numbersOf_append (l : List (Option Int × Nat)) (number : Option Int) (v : Nat) :
    numbersOf (l ++ [(number, v)]) = match number with
      | some k => if 0 ≤ k ∧ k ∉ numbersOf l then numbersOf l ++ [k] else numbersOf l
      | none => numbersOf l := by
  cases number with
  | none => simp [numbersOf]
  | some k =>
      rw [numbersOf, List.filterMap_append, List.filter_append, List.eraseDups_append]
      by_cases hk : 0 ≤ k
      · by_cases hmem : k ∈ (l.filterMap (·.1)).filter (0 ≤ ·)
        · simp [numbersOf, List.removeAll, hk, hmem]
        · simp [numbersOf, List.removeAll, hk, hmem, List.eraseDups_cons]
      · simp [numbersOf, List.removeAll, hk]

theorem entriesWith_append (l : List (Option Int × Nat)) (p : Option Int × Nat) (k : Int) :
    entriesWith (l ++ [p]) k =
      if p.1 = some k then entriesWith l k ++ [p.2] else entriesWith l k := by
  by_cases hp : p.1 = some k <;> simp [entriesWith, hp]

theorem mem_numbersOf_iff {l : List (Option Int × Nat)} {k : Int} :
    k ∈ numbersOf l ↔ 0 ≤ k ∧ ∃ p ∈ l, p.1 = some k := by
  simp [numbersOf, List.mem_eraseDups, and_comm]

theorem nodup_numbersOf (l : List (Option Int × Nat)) : (numbersOf l).Nodup := nodup_eraseDups _

/-- The groups are made up entry by entry. -/
theorem foldl_addClass (l : List (Option Int × Nat)) :
    l.foldl addClass [] = (numbersOf l).map fun k => (k, entriesWith l k) := by
  induction l using List.reverseRecOn with
  | nil => rfl
  | append_singleton l p ih =>
      obtain ⟨number, v⟩ := p
      rw [List.foldl_append, ih, numbersOf_append]
      cases number with
      | none => simp [addClass, entriesWith_append]
      | some k =>
          change (if 0 ≤ k then addTo k v _ else _) = _
          rw [addTo_map _ k v (nodup_numbersOf l)]
          by_cases hmem : k ∈ numbersOf l
          · have hk : 0 ≤ k := (mem_numbersOf_iff.mp hmem).1
            simp only [hk, hmem, entriesWith_append, Option.some.injEq, if_true, not_true,
              and_false, if_false]
            refine List.map_congr_left fun j _ => ?_
            simp only [eq_comm]
          · have hsame : (numbersOf l).map (fun j => (j, entriesWith l j)) =
                (numbersOf l).map fun j => (j, entriesWith (l ++ [(some k, v)]) j) := by
              refine List.map_congr_left fun j hj => ?_
              have hne : k ≠ j := fun heq => hmem (heq ▸ hj)
              simp [entriesWith_append, hne]
            by_cases hk : 0 ≤ k
            · have hnone : entriesWith l k = [] := by
                rw [entriesWith, List.map_eq_nil_iff, List.filter_eq_nil_iff]
                exact fun p hp hk' =>
                  hmem (mem_numbersOf_iff.mpr ⟨hk, p, hp, of_decide_eq_true hk'⟩)
              simp [hk, hmem, hsame, entriesWith_append, hnone]
            · simp [hk, hsame]

theorem classGroups_eq_map (numbers : List (Option Int)) :
    classGroups numbers =
      (numbersOf numbers.zipIdx).map (entriesWith numbers.zipIdx) := by
  rw [classGroups_eq, foldl_addClass, List.map_map]
  rfl

/-- The grouped entries are those with a number that counts. -/
theorem mem_classGroups_iff {numbers : List (Option Int)} {v : Nat} :
    v ∈ (classGroups numbers).flatten ↔ ∃ k, 0 ≤ k ∧ numbers[v]? = some (some k) := by
  have hentry : ∀ k, v ∈ entriesWith numbers.zipIdx k ↔ numbers[v]? = some (some k) := fun k => by
    simp [entriesWith, List.mem_zipIdx_iff_getElem?]
  rw [classGroups_eq_map, List.mem_flatten]
  constructor
  · rintro ⟨_, hmem, hv⟩
    obtain ⟨k, hk, rfl⟩ := List.mem_map.mp hmem
    exact ⟨k, (mem_numbersOf_iff.mp hk).1, (hentry k).mp hv⟩
  · rintro ⟨k, hk, hv⟩
    have hmem : (some k, v) ∈ numbers.zipIdx := List.mem_zipIdx_iff_getElem?.mpr hv
    exact ⟨_, List.mem_map_of_mem (mem_numbersOf_iff.mpr ⟨hk, _, hmem, rfl⟩), (hentry k).mpr hv⟩

section Classes

variable {K : Type} (g : Graph K) (number : Node K → Option Int)

/-- The drawn nodes with their numbers and places. -/
def entries : List (Option Int × Nat) := (g.drawnNodes.map number).zipIdx

theorem numbersOf_entries : numbersOf (entries g number) = g.classNumbers number := by
  have hfst : (entries g number).filterMap (·.1) = g.drawnNodes.filterMap number :=
    calc (entries g number).filterMap (id ∘ Prod.fst)
      _ = ((entries g number).map Prod.fst).filterMap id := List.filterMap_map.symm
      _ = (g.drawnNodes.map number).filterMap id := by rw [entries, List.zipIdx_map_fst]
      _ = g.drawnNodes.filterMap number := List.filterMap_map
  rw [numbersOf, hfst, Graph.classNumbers]

/-- The nodes at the entries of a number are those that have it. -/
theorem map_entriesWith (k : Int) :
    (entriesWith (entries g number) k).map (g.drawnIds[·]?) =
      ((g.drawnNodes.filter fun n => number n = some k).map (·.id)).map some := by
  have hid : ∀ p ∈ g.drawnNodes.zipIdx, g.drawnIds[p.2]? = some p.1.id := fun p hp => by
    rw [Graph.drawnIds, List.getElem?_map, List.mem_zipIdx_iff_getElem?.mp hp]
    rfl
  calc (entriesWith (entries g number) k).map (g.drawnIds[·]?)
    _ = (g.drawnNodes.zipIdx.filter fun p => number p.1 = some k).map
        fun p => g.drawnIds[p.2]? := by
      rw [entriesWith, entries, List.zipIdx_map, List.filter_map, List.map_map, List.map_map]
      rfl
    _ = (g.drawnNodes.zipIdx.filter fun p => number p.1 = some k).map fun p => some p.1.id :=
      List.map_congr_left fun p hp => hid p (List.mem_filter.mp hp).1
    _ = (((g.drawnNodes.zipIdx.map Prod.fst).filter fun n => number n = some k).map
        (·.id)).map some := by
      rw [List.filter_map, List.map_map, List.map_map]
      rfl
    _ = _ := by rw [List.zipIdx_map_fst]

/-- The groups list the nodes that the cells of the numbers list. -/
theorem map_classGroups :
    (classGroups (g.drawnNodes.map number)).map (·.map (g.drawnIds[·]?)) =
      (g.classCells number).map (·.map some) := by
  rw [classGroups_eq_map, Graph.classCells, ← numbersOf_entries, List.map_map, List.map_map]
  exact List.map_congr_left fun k _ => map_entriesWith g number k

end Classes

end Drawing

namespace Graph

variable {K : Type} {g : Graph K} {number : Node K → Option Int}

theorem nodup_classNumbers : (g.classNumbers number).Nodup := nodup_eraseDups _

theorem mem_classNumbers_iff {k : Int} :
    k ∈ g.classNumbers number ↔ 0 ≤ k ∧ ∃ n ∈ g.drawnNodes, number n = some k := by
  simp [classNumbers, List.mem_eraseDups, and_comm]

/-- The ids in a cell are those of the nodes with its number. -/
theorem mem_classCells_iff {c : Nat} {id : String} :
    id ∈ (g.classCells number).getD c [] ↔ ∃ k, (g.classNumbers number)[c]? = some k ∧
      ∃ n ∈ g.drawnNodes, number n = some k ∧ n.id = id := by
  rw [classCells, List.getD_eq_getElem?_getD, List.getElem?_map]
  cases (g.classNumbers number)[c]? with
  | none => simp
  | some k => simp [and_assoc]

section Nodup

variable (hids : g.ids.Nodup)
include hids

theorem drawnIds_nodup : g.drawnIds.Nodup := hids.sublist g.drawnIds_sublist

/-- Cells of numbers have no faults: a node has one number. -/
theorem listingsFault?_classCells :
    g.listingsFault? [] (listingsFrom 0 (g.classCells number)) = none := by
  rw [listingsFault?_eq_none_iff]
  refine ⟨fun c id hid => ?_, fun b c id hne hb hc _ => hne ?_⟩
  · obtain ⟨k, -, n, hn, -, rfl⟩ := mem_classCells_iff.mp hid
    exact g.drawnIds_sublist.subset (List.mem_map_of_mem hn)
  · obtain ⟨k, hk, n, hn, hnumber, rfl⟩ := mem_classCells_iff.mp hb
    obtain ⟨k', hk', n', hn', hnumber', hid⟩ := mem_classCells_iff.mp hc
    have hnode : n' = n := List.inj_on_of_nodup_map (drawnIds_nodup hids) hn' hn hid
    have hnumbers : k = k' := by
      rw [hnode, hnumber] at hnumber'
      exact Option.some.inj hnumber'
    obtain ⟨hlt, -⟩ := List.getElem?_eq_some_iff.mp hk
    exact (List.getElem?_inj hlt nodup_classNumbers).mp (by rw [hk, hk', hnumbers])

/-- Cells of numbers list drawn nodes, each once, and none is empty. -/
theorem drawnCells_classCells : g.drawnCells (g.classCells number) = g.classCells number := by
  have hcell : ∀ k, g.drawnOnce ((g.drawnNodes.filter fun n => number n = some k).map (·.id)) =
      (g.drawnNodes.filter fun n => number n = some k).map (·.id) := fun k => by
    have hsub : ((g.drawnNodes.filter fun n => number n = some k).map (·.id)).Sublist g.drawnIds :=
      List.filter_sublist.map _
    have hdrawn : ((g.drawnNodes.filter fun n => number n = some k).map (·.id)).filter
        (fun id => decide (id ∈ g.drawnIds)) =
          (g.drawnNodes.filter fun n => number n = some k).map (·.id) :=
      List.filter_eq_self.mpr fun id hid => decide_eq_true (hsub.subset hid)
    rw [drawnOnce, hdrawn, eraseDups_of_nodup ((drawnIds_nodup hids).sublist hsub)]
  have hcells : (g.classCells number).map g.drawnOnce = g.classCells number := by
    rw [classCells, List.map_map]
    exact List.map_congr_left fun k _ => hcell k
  rw [drawnCells, hcells, List.filter_eq_self]
  intro cell hcell
  obtain ⟨k, hk, rfl⟩ := List.mem_map.mp hcell
  obtain ⟨-, n, hn, hnumber⟩ := mem_classNumbers_iff.mp hk
  have hmem : n ∈ g.drawnNodes.filter fun n => number n = some k :=
    List.mem_filter.mpr ⟨hn, decide_eq_true hnumber⟩
  cases hfilter : g.drawnNodes.filter fun n => number n = some k with
  | nil =>
      rw [hfilter] at hmem
      cases hmem
  | cons n rest => rfl

end Nodup

end Graph

namespace Drawing

/-- Lists of indices are known by the ids at them. -/
theorem eq_of_map_getElem? {ids : List String} (hids : ids.Nodup) {cs cs' : List (List Nat)}
    (hcs : Disjoint ids.length cs) (hcs' : Disjoint ids.length cs')
    (h : cs.map (·.map (ids[·]?)) = cs'.map (·.map (ids[·]?))) : cs = cs' := by
  have hback : ∀ {cs : List (List Nat)}, Disjoint ids.length cs →
      (cs.map (·.map (ids[·]?))).map (·.map fun id => ids.idxOf (id.getD "")) = cs := by
    intro cs hcs
    rw [List.map_map]
    refine (List.map_congr_left fun members hmembers => ?_).trans cs.map_id
    rw [Function.comp_apply, List.map_map]
    refine (List.map_congr_left fun v hv => ?_).trans members.map_id
    have hlt := hcs.lt v (List.mem_flatten_of_mem hmembers hv)
    rw [Function.comp_apply, List.getElem?_eq_getElem hlt, Option.getD_some,
      hids.idxOf_getElem v hlt, id]
  rw [← hback hcs, h, hback hcs']

variable {K : Type} [Scalar K] (g : Graph K) (o : Options K) (number : Node K → Option Int)

/-- Numbers and their cells make the same drawing, or they are refused for the same fault. -/
theorem build_classify :
    build g { o with clustering := .classify number } =
      build g { o with clustering := .cells (g.classCells number) } := by
  cases hvalid : g.validate with
  | error err => simp only [build, hvalid]; rfl
  | ok =>
      obtain ⟨hids, hends⟩ := g.validate_eq_ok_iff.mp hvalid
      have hnone : g.cellsFault? (g.classCells number) = none := by
        rw [Graph.cellsFault?, g.repeatedId?_eq_none_iff.mpr hids,
          g.looseEdge?_eq_none_iff.mpr hends, Graph.listingsFault?_classCells hids]
        rfl
      have hclassify : build g { o with clustering := .classify number } =
          .ok (ofClusters g o (classGroups (g.drawnNodes.map number))) := by
        rw [build, hvalid]
        rfl
      rcases build_cases (g := g) (o := { o with clustering := .cells (g.classCells number) }) rfl
        with ⟨err, hfault, -⟩ | ⟨-, cs, hcs, hbuild, hlists⟩
      · rw [hnone] at hfault
        cases hfault
      · have hgroups := classGroups_disjoint (g.drawnNodes.map number)
        have hlength : g.drawnIds.length = g.drawnNodes.length := List.length_map _
        rw [List.length_map, ← hlength] at hgroups
        rw [← hlength] at hcs
        rw [Graph.drawnCells_classCells hids, ← map_classGroups] at hlists
        rw [hbuild, hclassify, eq_of_map_getElem? (Graph.drawnIds_nodup hids) hcs hgroups hlists]
        rfl

theorem create_classify :
    Run.create g { o with clustering := .classify number } =
      (Run.create g { o with clustering := .cells (g.classCells number) }).map
        (Run.inGuise ⟨id, fun _ => .classify number, id⟩) := by
  rw [Run.create, Run.create, build_classify]
  cases build g { o with clustering := .cells (g.classCells number) } with
  | error err => rfl
  | ok d =>
      have hstart := Run.ofDrawing_inGuise ⟨id, fun _ => .classify number, id⟩ d
        { o with clustering := .cells (g.classCells number) }
      rw [d.rename_id] at hstart
      exact congrArg Except.ok hstart

/-- Nodes without a number that counts are on no ring. -/
theorem ring?_classify {d : Drawing K}
    (hd : build g { o with clustering := .classify number } = .ok d) {v : Nat} {n : Node K}
    (hn : g.drawnNodes[v]? = some n) :
    (d.body v).role.ring? = none ↔ ∀ k, number n = some k → k < 0 := by
  have hlt : v < g.drawnNodes.length := (List.getElem?_eq_some_iff.mp hn).1
  obtain ⟨-, -, hd⟩ := bind_eq_ok hd
  obtain ⟨cs, hcs, hd⟩ := bind_eq_ok hd
  cases hcs
  cases hd
  have hnumber : (g.drawnNodes.map number)[v]? = some (number n) := by
    rw [List.getElem?_map, hn, Option.map_some]
  have hring : ((ofClusters g o (classGroups (g.drawnNodes.map number))).body v).role.ring? =
      clusterOf? (classGroups (g.drawnNodes.map number)) v :=
    (ring?_wiring _ v).symm.trans (ring?_ofClusters hlt)
  rw [← Option.not_isSome_iff_eq_none]
  change ¬((ofClusters g o _).body v).role.ring?.isSome ↔ _
  rw [hring, clusterOf?_isSome_iff, mem_classGroups_iff, hnumber]
  constructor
  · intro hnone k hk
    by_contra hcounts
    exact hnone ⟨k, Int.not_lt.mp hcounts, congrArg some hk⟩
  · rintro hneg ⟨k, hcounts, hk⟩
    exact absurd (hneg k (Option.some.inj hk)) (Int.not_lt.mpr hcounts)

/-- A graph with numbers is a graph with cells. -/
structure ReadsClasses : Prop where
  build_eq : build g { o with clustering := .classify number } =
    build g { o with clustering := .cells (g.classCells number) }
  compute_eq : ∀ clock, Layout.compute g { o with clustering := .classify number } clock =
    Layout.compute g { o with clustering := .cells (g.classCells number) } clock
  withProgress_eq : ∀ (σ : Type) clock (observe : σ → Layout K → σ) seen,
    Layout.withProgress g { o with clustering := .classify number } clock observe seen =
      Layout.withProgress g { o with clustering := .cells (g.classCells number) } clock observe seen
  /-- Nodes without a number that counts are on no ring. -/
  ring?_eq_none_iff : ∀ d, build g { o with clustering := .classify number } = .ok d →
    ∀ v n, g.drawnNodes[v]? = some n →
      ((d.body v).role.ring? = none ↔ ∀ k, number n = some k → k < 0)

/-- Nodes with the same number share a ring, as if a cell had listed them. -/
theorem readsClasses : ReadsClasses g o number where
  build_eq := build_classify g o number
  compute_eq clock := Layout.compute_of_create rfl (fun _ => rfl) (create_classify g o number) clock
  withProgress_eq _ clock observe seen :=
    Layout.withProgress_of_create rfl (fun _ => rfl) (create_classify g o number) clock observe seen
  ring?_eq_none_iff _ hd _ _ hn := ring?_classify g o number hd hn

end Drawing

end RingLayout
