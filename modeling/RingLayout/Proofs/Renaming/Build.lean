import RingLayout.Proofs.Guise
import RingLayout.Proofs.Validity

/-! # Renaming and building

A graph under other names is valid if it was valid before, its cells are read alike, and its
drawing is the same under these names. The ids of edges are of no account.
-/

namespace RingLayout

variable {K : Type}

def Node.rename (f : String → String) (n : Node K) : Node K :=
  { n with id := f n.id, group := n.group.map f }

/-- A graph with its nodes renamed and new ids for its edges. -/
def Graph.rename (f : String → String) (edgeIds : Nat → String) (g : Graph K) : Graph K where
  nodes := g.nodes.map (·.rename f)
  edges := g.edges.mapIdx fun i e => ⟨edgeIds i, f e.source, f e.target⟩

/-- The cells of renamed nodes. Numbers are given to nodes under their new names. -/
def Clustering.rename (f : String → String) : Clustering K → Clustering K
  | .none => .none
  | .cells lists => .cells (lists.map (·.map f))
  | .classify number => .classify number

namespace Graph

variable (f : String → String) (edgeIds : Nat → String) (g : Graph K)

@[simp] theorem ids_rename : (g.rename f edgeIds).ids = g.ids.map f := by
  simp [ids, rename, Node.rename]

@[simp] theorem drawnNodes_rename :
    (g.rename f edgeIds).drawnNodes = g.drawnNodes.map (·.rename f) := by
  simp only [drawnNodes, rename, List.filter_map]
  rfl

@[simp] theorem drawnIds_rename : (g.rename f edgeIds).drawnIds = g.drawnIds.map f := by
  simp [drawnIds, Node.rename]

@[simp] theorem groupIds_rename : (g.rename f edgeIds).groupIds = g.groupIds.map f := by
  simp only [groupIds, rename, List.filter_map, List.map_map]
  rfl

variable {f} (hf : Function.Injective f)
include hf

theorem validate_rename_iff : (g.rename f edgeIds).validate = .ok () ↔ g.validate = .ok () := by
  rw [validate_eq_ok_iff, validate_eq_ok_iff, ids_rename, List.nodup_map_iff hf]
  refine and_congr_right fun _ => ?_
  simp only [rename, List.mem_mapIdx]
  constructor
  · intro h e he
    obtain ⟨i, hi, rfl⟩ := List.mem_iff_getElem.mp he
    simpa [hf.eq_iff] using h _ ⟨i, hi, rfl⟩
  · rintro h _ ⟨i, hi, rfl⟩
    simpa [hf.eq_iff] using h _ (List.getElem_mem hi)

theorem node?_rename (id : String) :
    (g.rename f edgeIds).node? (f id) = (g.node? id).map (·.rename f) := by
  simp only [node?, rename, List.find?_map]
  congr 2
  funext n
  simp [Node.rename, hf.eq_iff]

end Graph

namespace Drawing

theorem toOption_bind {ε α β : Type} (x : Except ε α) (k : α → Except ε β) :
    (x >>= k).toOption = x.toOption.bind fun a => (k a).toOption := by
  cases x <;> rfl

variable {f : String → String} (hf : Function.Injective f)
include hf

theorem indexOf?_map (ids : List String) (id : String) :
    indexOf? (ids.map f) (f id) = indexOf? ids id := by
  have hbeq : (fun a => (a == f id)) ∘ f = (· == id) := by
    funext a
    simp [hf.eq_iff]
  rw [indexOf?, indexOf?, List.idxOf?, List.idxOf?, List.findIdx?_map, hbeq]

theorem readCell_rename (edgeIds : Nat → String) (g : Graph K) (ids : List String) (cell : Nat)
    (names : List String) (owners : List (Nat × Nat)) :
    (readCell (g.rename f edgeIds) (ids.map f) cell (names.map f) owners).toOption =
      (readCell g ids cell names owners).toOption := by
  induction names generalizing owners with
  | nil => rfl
  | cons id rest ih =>
      simp only [List.map_cons, readCell, indexOf?_map hf, g.node?_rename edgeIds hf,
        Option.any_map]
      cases indexOf? ids id with
      | none =>
          dsimp only
          change (if ((g.node? id).any (·.isGroup)) = true then _ else _ : Except _ _).toOption = _
          split
          · exact ih owners
          · rfl
      | some v =>
          dsimp only
          cases owners.lookup v with
          | some first =>
              dsimp only
              split
              · exact ih owners
              · rfl
          | none =>
              have hrest := ih ((v, cell) :: owners)
              dsimp only
              rw [toOption_bind, toOption_bind, hrest]

theorem readCells_rename (edgeIds : Nat → String) (g : Graph K) (ids : List String) (cell : Nat)
    (cells : List (List String)) (owners : List (Nat × Nat)) :
    (readCells (g.rename f edgeIds) (ids.map f) cell (cells.map (·.map f)) owners).toOption =
      (readCells g ids cell cells owners).toOption := by
  induction cells generalizing cell owners with
  | nil => rfl
  | cons names cells ih =>
      simp only [List.map_cons, readCells, toOption_bind, readCell_rename hf, ih]

theorem clusters_rename (edgeIds : Nat → String) (g : Graph K) {clustering : Clustering K}
    (hclustering : ∀ number, clustering ≠ .classify number) :
    (clusters (g.rename f edgeIds) (clustering.rename f)).toOption =
      (clusters g clustering).toOption := by
  cases clustering with
  | none => rfl
  | cells lists =>
      have hids : (g.rename f edgeIds).drawnNodes.map (·.id) = (g.drawnNodes.map (·.id)).map f :=
        g.drawnIds_rename f edgeIds
      rw [Clustering.rename, clusters, hids]
      exact readCells_rename hf edgeIds g _ 0 lists []
  | classify number => exact absurd rfl (hclustering number)

theorem linkPairs_rename (ids : List String) (edgeIds : Nat → String) (edges : List Edge)
    (seen : List (Nat × Nat)) :
    linkPairs (ids.map f) seen (edges.mapIdx fun i e => ⟨edgeIds i, f e.source, f e.target⟩) =
      linkPairs ids seen edges := by
  induction edges generalizing seen edgeIds with
  | nil => rfl
  | cons e edges ih =>
      simp only [List.mapIdx_cons, linkPairs, indexOf?_map hf, ih fun i => edgeIds (i + 1)]

variable [Scalar K]

theorem ofClusters_rename (edgeIds : Nat → String) (g : Graph K) (o : Options K)
    (cs : List (List Nat)) :
    ofClusters (g.rename f edgeIds) o cs = (ofClusters g o cs).rename f := by
  have hpairs : linkPairs ((g.rename f edgeIds).drawnNodes.map (·.id)) []
      (g.rename f edgeIds).edges = linkPairs (g.drawnNodes.map (·.id)) [] g.edges := by
    have hids : (g.rename f edgeIds).drawnNodes.map (·.id) = (g.drawnNodes.map (·.id)).map f :=
      g.drawnIds_rename f edgeIds
    rw [hids]
    exact linkPairs_rename hf _ edgeIds g.edges []
  have hlength : (g.rename f edgeIds).drawnNodes.length = g.drawnNodes.length := by simp
  simp only [ofClusters, hpairs, hlength]
  simp only [rename, Graph.drawnNodes_rename, Graph.groupIds_rename, List.zipIdx_map,
    Array.map_append, List.map_toArray, List.map_map]
  rfl

/-- A renamed graph is refused if it was refused before, and else it has the renamed drawing. -/
theorem build_rename (edgeIds : Nat → String) (g : Graph K) (o : Options K)
    (hclustering : ∀ number, o.clustering ≠ .classify number) (display : Display → Display) :
    (build (g.rename f edgeIds) (o.inGuise ⟨f, Clustering.rename f, display⟩)).toOption =
      (build g o).toOption.map (rename f) := by
  have hclusters := clusters_rename hf edgeIds g hclustering
  have hvalid := g.validate_rename_iff edgeIds hf
  have hoptions : (o.inGuise ⟨f, Clustering.rename f, display⟩).clustering =
      o.clustering.rename f := rfl
  simp only [build, toOption_bind, hoptions]
  cases hv : g.validate with
  | error err =>
      have hnot : (g.rename f edgeIds).validate ≠ .ok () := fun hok => by
        rw [hvalid, hv] at hok
        cases hok
      cases hv' : (g.rename f edgeIds).validate with
      | error err' => rfl
      | ok => exact absurd hv' hnot
  | ok =>
      rw [hvalid.mpr hv]
      change (clusters _ _).toOption.bind _ = ((clusters _ _).toOption.bind _).map _
      rw [hclusters]
      cases clusters g o.clustering with
      | error err => rfl
      | ok cs => exact congrArg some (ofClusters_rename hf edgeIds g o cs)

end Drawing

end RingLayout
