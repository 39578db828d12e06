import Mathlib.Data.List.Nodup
import RingLayout.Drawing.Build

/-! # Valid graphs

A graph is valid when no id repeats and every edge has its ends. Of several faults the first is
reported, which is a matter of every entry of a list and the entries before it.
-/

namespace RingLayout

/-- The entries of a list, each with the entries before it. The list is read on after `pre`. -/
def withEarlier {α : Type} (pre : List α) : List α → List (List α × α)
  | [] => []
  | a :: l => (pre, a) :: withEarlier (pre ++ [a]) l

/-- What is required of entries and of pairs of them. -/
theorem forall_withEarlier_iff {α : Type} (P : α → Prop) (R : α → α → Prop) (pre l : List α) :
    (∀ p ∈ withEarlier pre l, P p.2 ∧ ∀ b ∈ p.1, R b p.2) ↔
      (∀ a ∈ l, P a ∧ ∀ b ∈ pre, R b a) ∧ l.Pairwise R := by
  induction l generalizing pre with
  | nil => simp [withEarlier]
  | cons a l ih =>
      rw [withEarlier, List.forall_mem_cons, ih, List.forall_mem_cons, List.pairwise_cons]
      simp only [List.forall_mem_append, List.forall_mem_singleton]
      constructor
      · rintro ⟨ha, hl, hpairs⟩
        exact ⟨⟨ha, fun c hc => ⟨(hl c hc).1, (hl c hc).2.1⟩⟩, fun c hc => (hl c hc).2.2, hpairs⟩
      · rintro ⟨⟨ha, hl⟩, hfirst, hpairs⟩
        exact ⟨ha, fun c hc => ⟨(hl c hc).1, (hl c hc).2, hfirst c hc⟩, hpairs⟩

namespace Graph

variable {K : Type} (g : Graph K)

/-- The ids of all nodes, groups included. -/
def ids : List String := g.nodes.map (·.id)

/-- The ids of the nodes that are drawn. -/
def drawnIds : List String := g.drawnNodes.map (·.id)

/-- The first id that a node before it has already. -/
def repeatedId? : Option String :=
  ((withEarlier [] g.ids).find? fun p => p.1.contains p.2).map (·.2)

/-- The first edge with an end that is no node. -/
def looseEdge? : Option Edge :=
  g.edges.find? fun e => decide (e.source ∉ g.ids ∨ e.target ∉ g.ids)

theorem drawnIds_sublist : g.drawnIds.Sublist g.ids := List.filter_sublist.map _

theorem node?_isSome_iff (id : String) : (g.node? id).isSome ↔ id ∈ g.ids := by
  simp [node?, ids, List.find?_isSome]

/-- A node that is not drawn is a group. -/
theorem any_isGroup_node? {id : String} (hnot : id ∉ g.drawnIds) :
    (g.node? id).any (·.isGroup) = decide (id ∈ g.ids) := by
  rw [Bool.eq_iff_iff, decide_eq_true_eq, ← g.node?_isSome_iff]
  cases hnode : g.node? id with
  | none => simp
  | some n =>
      have hname : n.id = id := by simpa using List.find?_some hnode
      have hgroup : n.isGroup = true := by
        by_contra hdrawn
        refine hnot (List.mem_map.mpr ⟨n, List.mem_filter.mpr ⟨?_, ?_⟩, hname⟩)
        · exact List.mem_of_find?_eq_some hnode
        · simpa using hdrawn
      simp [hgroup]

/-- The ids seen are looked up in a list that grows at its front. -/
theorem firstRepeated?_eq (pre ids : List String) :
    firstRepeated? pre.reverse ids =
      ((withEarlier pre ids).find? fun p => p.1.contains p.2).map (·.2) := by
  induction ids generalizing pre with
  | nil => rfl
  | cons id ids ih =>
      have hnext := ih (pre ++ [id])
      rw [List.reverse_append, List.reverse_singleton, List.singleton_append] at hnext
      rw [firstRepeated?, hnext, withEarlier, List.find?_cons]
      have hmem : pre.reverse.contains id = pre.contains id := by simp
      rw [hmem]
      cases pre.contains id <;> rfl

/-- The nodes are checked before the edges. -/
theorem validate_eq :
    g.validate = match g.repeatedId? with
      | some id => .error (.duplicateNode id)
      | none => match g.looseEdge? with
        | some e => .error (.missingEndpoint e.id)
        | none => .ok () := by
  have hnodes : firstRepeated? [] (g.nodes.map (·.id)) = g.repeatedId? :=
    firstRepeated?_eq [] g.ids
  have hedges : (g.edges.find? fun e => !g.joinsNodes e) = g.looseEdge? := by
    rw [looseEdge?]
    congr 1
    funext e
    rw [joinsNodes, Bool.eq_iff_iff]
    simp [← g.node?_isSome_iff]
  rw [← hnodes, ← hedges]
  rfl

theorem repeatedId?_eq_none_iff : g.repeatedId? = none ↔ g.ids.Nodup := by
  rw [repeatedId?, Option.map_eq_none_iff, List.find?_eq_none]
  have hpairs := forall_withEarlier_iff (fun _ => True) (· ≠ ·) [] g.ids
  simp only [true_and, List.not_mem_nil, false_imp_iff, implies_true] at hpairs
  refine Iff.trans (forall₂_congr fun p _ => ?_) hpairs
  rw [List.contains_iff_mem]
  exact ⟨fun hnot b hb heq => hnot (heq ▸ hb), fun hne hmem => hne p.2 hmem rfl⟩

theorem looseEdge?_eq_none_iff :
    g.looseEdge? = none ↔ ∀ e ∈ g.edges, e.source ∈ g.ids ∧ e.target ∈ g.ids := by
  simp [looseEdge?, not_or]

/-- What a valid graph is. -/
theorem validate_eq_ok_iff :
    g.validate = .ok () ↔ g.ids.Nodup ∧ ∀ e ∈ g.edges, e.source ∈ g.ids ∧ e.target ∈ g.ids := by
  rw [← g.repeatedId?_eq_none_iff, ← g.looseEdge?_eq_none_iff, validate_eq]
  cases g.repeatedId? with
  | some id => simp
  | none => cases g.looseEdge? <;> simp

end Graph

end RingLayout
