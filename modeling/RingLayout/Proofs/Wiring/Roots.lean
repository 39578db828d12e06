import Mathlib.Data.Setoid.Basic
import RingLayout.Proofs.Components
import RingLayout.Proofs.Crossings
import RingLayout.Proofs.Wiring

/-! # Wirings and their roots

Every node has a root that stands for it: its own body, or the hub of its ring. Seen from the
roots, nodes hang together in the same way as they do along links and within rings.
-/

namespace RingLayout

namespace Wiring

variable (w : Wiring)

/-- The nodes that are not set aside. -/
def simulated : List Nat := (List.range w.nodeCount).filter fun v => !w.tiled.contains v

def representative (v : Nat) : Nat :=
  match w.ring? v with
  | some c => w.hub c
  | none => v

/-- The position of a node's representative among the roots. -/
def position (v : Nat) : Nat := w.roots.idxOf (w.representative v)

/-- What a link is for the roots. -/
def rootPair? (e : Nat) : Option (Nat × Nat) :=
  let a := w.representative (w.ends e).1
  let b := w.representative (w.ends e).2
  if a = b then none
  else
    match w.roots.idxOf? a, w.roots.idxOf? b with
    | some i, some j => some (i, j)
    | _, _ => none

def rootPairs : List (Nat × Nat) := (List.range w.linkCount).filterMap w.rootPair?

/-- From a node to another along a link or within a ring. -/
inductive Hop : Nat → Nat → Prop
  | link {e : Nat} (he : e < w.linkCount) : Hop (w.ends e).1 (w.ends e).2
  | ring {u v c : Nat} (hu : u ∈ w.simulated) (hv : v ∈ w.simulated) (huc : w.ring? u = some c)
      (hvc : w.ring? v = some c) : Hop u v

/-- Nodes hang together along links and rings. -/
def linked : Setoid {v // v ∈ w.simulated} :=
  (Relation.EqvGen.setoid w.Hop).comap Subtype.val

/-- Every node has its root, and every root is there for a node. -/
structure Rooted : Prop where
  ends_mem : ∀ e < w.linkCount, (w.ends e).1 ∈ w.simulated ∧ (w.ends e).2 ∈ w.simulated
  representative_mem : ∀ v ∈ w.simulated, w.representative v ∈ w.roots
  exists_representative : ∀ r ∈ w.roots, ∃ v ∈ w.simulated, w.representative v = r
  same_ring : ∀ u ∈ w.simulated, ∀ v ∈ w.simulated, w.representative u = w.representative v →
    u = v ∨ ∃ c, w.ring? u = some c ∧ w.ring? v = some c
  roots_nodup : w.roots.Nodup

variable {w}

theorem representative_of_ring? {v c : Nat} (h : w.ring? v = some c) :
    w.representative v = w.hub c := by
  rw [representative, h]

namespace Rooted

variable (h : w.Rooted)
include h

theorem idxOf?_representative {v : Nat} (hv : v ∈ w.simulated) :
    w.roots.idxOf? (w.representative v) = some (w.position v) :=
  (CyclicOrder.idxOf?_eq_iff h.roots_nodup).mpr
    (List.getElem?_idxOf (h.representative_mem v hv))

theorem position_lt {v : Nat} (hv : v ∈ w.simulated) : w.position v < w.roots.length :=
  List.idxOf_lt_length_of_mem (h.representative_mem v hv)

theorem position_inj {u v : Nat} (hu : u ∈ w.simulated) :
    w.position u = w.position v ↔ w.representative u = w.representative v :=
  List.idxOf_inj (h.representative_mem u hu)

/-- A link joins two roots unless it stays within a ring. -/
theorem mem_rootPairs_iff {p : Nat × Nat} : p ∈ w.rootPairs ↔
    ∃ e < w.linkCount, w.position (w.ends e).1 ≠ w.position (w.ends e).2 ∧
      p = (w.position (w.ends e).1, w.position (w.ends e).2) := by
  rw [rootPairs, List.mem_filterMap]
  refine exists_congr fun e => ?_
  rw [List.mem_range]
  refine and_congr_right fun he => ?_
  obtain ⟨hsource, htarget⟩ := h.ends_mem e he
  rw [rootPair?, h.idxOf?_representative hsource, h.idxOf?_representative htarget, Ne,
    h.position_inj hsource]
  split
  next heq => simp [heq]
  next hne => simp [hne, eq_comm]

theorem rootPairs_lt : ∀ p ∈ w.rootPairs, p.1 < w.roots.length ∧ p.2 < w.roots.length := by
  intro p hp
  obtain ⟨e, he, -, rfl⟩ := h.mem_rootPairs_iff.mp hp
  obtain ⟨hsource, htarget⟩ := h.ends_mem e he
  exact ⟨h.position_lt hsource, h.position_lt htarget⟩

/-- Nodes hang together when their roots do. -/
theorem linked_iff_reaches {u v : Nat} (hu : u ∈ w.simulated) (hv : v ∈ w.simulated) :
    Relation.EqvGen w.Hop u v ↔
      (Adjacency.ofPairs w.roots.length w.rootPairs).Reaches (w.position u) (w.position v) := by
  apply Adjacency.eqvGen_iff_reaches (· ∈ w.simulated) h.rootPairs_lt ?_ ?_ ?_ hu hv
  · intro u v hhop
    cases hhop with
    | @link e he =>
        refine or_iff_not_imp_left.mpr fun hne => ?_
        exact h.mem_rootPairs_iff.mpr ⟨e, he, hne, rfl⟩
    | ring hu hv huc hvc =>
        rw [position, position, representative_of_ring? huc, representative_of_ring? hvc]
        exact Or.inl rfl
  · intro p hp
    obtain ⟨e, he, -, rfl⟩ := h.mem_rootPairs_iff.mp hp
    obtain ⟨hsource, htarget⟩ := h.ends_mem e he
    exact ⟨_, _, hsource, htarget, .link he, rfl⟩
  · intro u v hu hv heq
    rcases h.same_ring u hu v hv ((h.position_inj hu).mp heq) with rfl | ⟨c, huc, hvc⟩
    · exact Relation.EqvGen.refl u
    · exact Relation.EqvGen.rel _ _ (.ring hu hv huc hvc)

/-- The components of the roots are as many as the classes of nodes that hang together. -/
theorem length_components :
    (Adjacency.ofPairs w.roots.length w.rootPairs).components.length =
      Nat.card (Quotient w.linked) := by
  refine (Adjacency.classes_ofPairs h.rootPairs_lt).length_eq_card
    (fun v : {v // v ∈ w.simulated} => w.position v) (fun v => h.position_lt v.2)
    (fun i hi => ?_) fun u v => h.linked_iff_reaches u.2 v.2
  obtain ⟨v, hv, heq⟩ := h.exists_representative w.roots[i] (List.getElem_mem hi)
  refine ⟨⟨v, hv⟩, ?_⟩
  change w.roots.idxOf (w.representative v) = i
  rw [heq, h.roots_nodup.idxOf_getElem i hi]

end Rooted

end Wiring

end RingLayout
