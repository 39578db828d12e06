import RingLayout.Proofs.Arrangement
import RingLayout.Proofs.Components

/-! # The depth-first walk

The stack of a walk keeps indices that have been placed in the meantime, and the same index may be
in it several times. It is a pile with one layer for every placed index, the latest on top, and a
layer has all unplaced neighbours of its index, in the order in which to visit them. So the walk
does what a recursive search would do: it goes on from the last placed index that has an unplaced
neighbour left.
-/

namespace RingLayout

/-- Without repetitions different positions have different entries. -/
theorem ne_of_getElem? {α : Type} {l : List α} (hl : l.Nodup) {i j : Nat} {a b : α} (hij : i ≠ j)
    (hi : l[i]? = some a) (hj : l[j]? = some b) : a ≠ b := by
  rintro rfl
  exact hij ((List.getElem?_inj (List.getElem?_eq_some_iff.mp hi).1 hl).mp (hi.trans hj.symm))

namespace Arrangement

open Adjacency

variable {adj : Adjacency} {placed trail stack : List Nat} {u v w : Nat}

/-! ## The order of visits -/

theorem before_iff : before adj u v = true ↔
    adj.degree u < adj.degree v ∨ adj.degree u = adj.degree v ∧ u ≤ v := by
  simp [before]

theorem before_trans (huv : before adj u v = true) (hvw : before adj v w = true) :
    before adj u w = true := by
  rw [before_iff] at *
  omega

theorem before_total (adj : Adjacency) (u v : Nat) :
    (before adj u v || before adj v u) = true := by
  rw [Bool.or_eq_true, before_iff, before_iff]
  omega

theorem mem_successors_iff :
    u ∈ successors adj placed v ↔ adj.Joins v u ∧ u ∉ placed := by
  rw [successors, List.mem_eraseDups, List.mem_mergeSort, List.mem_filter]
  simp [Joins]

theorem pairwise_successors (adj : Adjacency) (placed : List Nat) (v : Nat) :
    (successors adj placed v).Pairwise fun u w => before adj u w = true := by
  refine List.Pairwise.sublist (eraseDups_sublist _) ?_
  exact @List.pairwise_mergeSort _ (before adj) (fun _ _ _ => before_trans) (before_total adj) _

theorem before_of_nextStart? (hv : nextStart? adj placed = some v) (hu : u < adj.size)
    (hnot : u ∉ placed) : before adj v u = true := by
  unfold nextStart? at hv
  split at hv
  · cases hv
  next w ws hrest =>
    have hmem : u ∈ w :: ws := hrest ▸ List.mem_filter.mpr
      ⟨List.mem_range.mpr hu, by simpa using hnot⟩
    rw [← Option.some.inj hv, before_iff]
    exact adj.lowestDegree_le w ws u hmem

/-! ## The rule -/

/-- An index that has no unplaced neighbour. -/
def Exhausted (adj : Adjacency) (placed : List Nat) (v : Nat) : Prop :=
  ∀ u, adj.Joins v u → u ∈ placed

/-- The rule by which an index comes next after the placed ones, the last of them at the end. -/
inductive Follows (adj : Adjacency) (placed : List Nat) (v : Nat) : Prop
  /-- The next index is the first unplaced neighbour of the last placed index that has one. -/
  | neighbor (hnot : v ∉ placed) (older : List Nat) (w : Nat) (recent : List Nat)
      (hplaced : placed = older ++ w :: recent) (hrecent : ∀ x ∈ recent, Exhausted adj placed x)
      (hjoins : adj.Joins w v)
      (hfirst : ∀ u, adj.Joins w u → u ∉ placed → before adj v u = true)
  /-- Where no placed index has one, the next is the first unplaced index of all. -/
  | start (hnot : v ∉ placed) (hplaced : ∀ x ∈ placed, Exhausted adj placed x)
      (hlt : v < adj.size) (hfirst : ∀ u < adj.size, u ∉ placed → before adj v u = true)

theorem Follows.not_mem (h : Follows adj placed v) : v ∉ placed := by
  cases h with
  | neighbor hnot => exact hnot
  | start hnot => exact hnot

/-- Every index of a list follows the ones before it. -/
inductive Walked (adj : Adjacency) : List Nat → Prop
  | nil : Walked adj []
  | snoc {placed : List Nat} {v : Nat} (h : Walked adj placed) (hv : Follows adj placed v) :
      Walked adj (placed ++ [v])

theorem Walked.follows {order : List Nat} (h : Walked adj order) {i : Nat}
    (hi : order[i]? = some v) : Follows adj (order.take i) v := by
  induction h with
  | nil => cases hi
  | @snoc placed w _ hw ih =>
      rcases Nat.lt_or_ge i placed.length with hlt | hge
      · rw [List.take_append_of_le_length (Nat.le_of_lt hlt)]
        rw [List.getElem?_append_left hlt] at hi
        exact ih hi
      · have hlast : i = placed.length := by
          have hlength := (List.getElem?_eq_some_iff.mp hi).1
          rw [List.length_append, List.length_singleton] at hlength
          omega
        rw [hlast, List.getElem?_concat_length] at hi
        rw [hlast, List.take_left, ← Option.some.inj hi]
        exact hw

/-! ## The stack -/

/-- A stack in layers, one for every index of a trail. A layer has the unplaced neighbours of its
index, the one to visit first in front; what else it has is placed. -/
def Piled (adj : Adjacency) (placed : List Nat) : List Nat → List Nat → Prop
  | [], stack => stack = []
  | w :: trail, stack => ∃ layer rest, stack = layer ++ rest ∧
      layer.Pairwise (fun u v => before adj u v = true) ∧
      (∀ u, u ∉ placed → (u ∈ layer ↔ adj.Joins w u)) ∧ Piled adj placed trail rest

namespace Piled

/-- Placing one more index leaves a pile of the unplaced. -/
theorem mono (h : Piled adj placed trail stack) (v : Nat) :
    Piled adj (v :: placed) trail stack := by
  induction trail generalizing stack with
  | nil => exact h
  | cons w trail ih =>
      obtain ⟨layer, rest, hstack, hsorted, hlayer, hrest⟩ := h
      exact ⟨layer, rest, hstack, hsorted,
        fun u hu => hlayer u fun hmem => hu (List.mem_cons_of_mem v hmem), ih hrest⟩

/-- Placed indices may go from the top. -/
theorem tail (h : Piled adj placed trail (v :: stack)) (hv : v ∈ placed) :
    Piled adj placed trail stack := by
  induction trail with
  | nil => cases h
  | cons w trail ih =>
      obtain ⟨layer, rest, hstack, hsorted, hlayer, hrest⟩ := h
      cases layer with
      | nil =>
          rw [List.nil_append] at hstack
          exact ⟨[], stack, rfl, .nil, hlayer, ih (hstack ▸ hrest)⟩
      | cons x layer =>
          obtain ⟨rfl, rfl⟩ := List.cons.inj hstack
          refine ⟨layer, rest, rfl, hsorted.of_cons, fun u hu => ?_, hrest⟩
          have hne : u ≠ v := fun heq => hu (heq ▸ hv)
          rw [← hlayer u hu, List.mem_cons, or_iff_right hne]

theorem dropWhile (h : Piled adj placed trail stack) :
    Piled adj placed trail (stack.dropWhile placed.contains) := by
  induction stack with
  | nil => exact h
  | cons v stack ih =>
      rw [List.dropWhile_cons]
      split
      next hv => exact ih (h.tail (List.contains_iff_mem.mp hv))
      next => exact h

/-- Where nothing is left, all neighbours are placed. -/
theorem exhausted (h : Piled adj placed trail []) : ∀ x ∈ trail, Exhausted adj placed x := by
  induction trail with
  | nil => exact fun x hx => absurd hx List.not_mem_nil
  | cons w trail ih =>
      obtain ⟨layer, rest, hstack, -, hlayer, hrest⟩ := h
      obtain ⟨rfl, rfl⟩ := List.append_eq_nil_iff.mp hstack.symm
      refine List.forall_mem_cons.mpr ⟨fun u hu => ?_, ih hrest⟩
      by_contra hnot
      exact List.not_mem_nil ((hlayer u hnot).mpr hu)

/-- An unplaced index on top is what the latest index with unplaced neighbours goes on to. -/
theorem exists_latest (h : Piled adj placed trail (v :: stack)) (hv : v ∉ placed) :
    ∃ recent w older, trail = recent ++ w :: older ∧ (∀ x ∈ recent, Exhausted adj placed x) ∧
      adj.Joins w v ∧ ∀ u, adj.Joins w u → u ∉ placed → before adj v u = true := by
  induction trail with
  | nil => cases h
  | cons w trail ih =>
      obtain ⟨layer, rest, hstack, hsorted, hlayer, hrest⟩ := h
      cases layer with
      | nil =>
          rw [List.nil_append] at hstack
          obtain ⟨recent, x, older, htrail, hrecent, hx⟩ := ih (hstack ▸ hrest)
          refine ⟨w :: recent, x, older, congrArg (w :: ·) htrail,
            List.forall_mem_cons.mpr ⟨fun u hu => ?_, hrecent⟩, hx⟩
          by_contra hnot
          exact List.not_mem_nil ((hlayer u hnot).mpr hu)
      | cons x layer =>
          obtain ⟨rfl, -⟩ := List.cons.inj hstack
          refine ⟨[], w, trail, rfl, fun x hx => absurd hx List.not_mem_nil,
            (hlayer v hv).mp List.mem_cons_self, fun u hu hnot => ?_⟩
          rcases List.mem_cons.mp ((hlayer u hnot).mpr hu) with rfl | hmem
          · exact before_iff.mpr (.inr ⟨rfl, Nat.le_refl u⟩)
          · exact (List.pairwise_cons.mp hsorted).1 u hmem

/-- A newly placed index gets a layer of its own. -/
theorem cons_successors (h : Piled adj (v :: placed) placed stack) :
    Piled adj (v :: placed) (v :: placed) (successors adj (v :: placed) v ++ stack) := by
  refine ⟨_, stack, rfl, pairwise_successors adj (v :: placed) v, fun u hu => ?_, h⟩
  exact mem_successors_iff.trans (and_iff_left hu)

end Piled

/-! ## The walk -/

/-- Whether an index is exhausted does not hang on the order of the placed ones. -/
theorem exhausted_reverse : Exhausted adj placed.reverse v ↔ Exhausted adj placed v :=
  forall₂_congr fun _ _ => List.mem_reverse

/-- The walk places every index by the rule. -/
theorem walked_walk (left : Nat) (hwalked : Walked adj placed.reverse)
    (hpiled : Piled adj placed placed stack) : Walked adj (walk adj left placed stack) := by
  induction left generalizing placed stack with
  | zero => exact hwalked
  | succ left ih =>
      -- both ways on place an index that follows, over what is left of the stack
      have hstep : ∀ v rest, Follows adj placed.reverse v → Piled adj (v :: placed) placed rest →
          Walked adj (walk adj left (v :: placed) (successors adj (v :: placed) v ++ rest)) := by
        intro v rest hv hrest
        refine ih ?_ hrest.cons_successors
        rw [List.reverse_cons]
        exact hwalked.snoc hv
      have hdropped := hpiled.dropWhile
      rw [walk]
      split
      next v rest hdrop =>
        rw [hdrop] at hdropped
        have hnot : v ∉ placed := by
          have hhead := List.head?_dropWhile_not placed.contains stack
          rw [hdrop] at hhead
          simpa using hhead
        refine hstep v rest ?_ ((hdropped.mono v).tail List.mem_cons_self)
        obtain ⟨recent, w, older, hplaced, hrecent, hjoins, hfirst⟩ := hdropped.exists_latest hnot
        refine .neighbor (by simpa using hnot) older.reverse w recent.reverse ?_ ?_ hjoins ?_
        · simp [hplaced]
        · exact fun x hx => exhausted_reverse.mpr (hrecent x (List.mem_reverse.mp hx))
        · exact fun u hu hnew => hfirst u hu (by simpa using hnew)
      next hdrop =>
        rw [hdrop] at hdropped
        split
        next v hnext =>
          obtain ⟨hlt, hnot⟩ := nextStart?_spec hnext
          have hstart : Follows adj placed.reverse v := by
            refine .start (by simpa using hnot) ?_ hlt ?_
            · exact fun x hx =>
                exhausted_reverse.mpr (hdropped.exhausted x (List.mem_reverse.mp hx))
            · exact fun u hu hnew => before_of_nextStart? hnext hu (by simpa using hnew)
          have hwalk := hstep v [] hstart (hdropped.mono v)
          rwa [List.append_nil] at hwalk
        next => exact hwalked

theorem walked_walkOrder (adj : Adjacency) : Walked adj (walkOrder adj) :=
  walked_walk adj.size .nil rfl

/-- Between a placed index and a neighbour of it, the walk only goes on from indices placed no
earlier. -/
theorem Walked.exists_joins {order : List Nat} (h : Walked adj order) (hnodup : order.Nodup)
    {i j k : Nat} (hij : i < j) (hjk : j ≤ k) (hi : order[i]? = some u) (hj : order[j]? = some v)
    (hk : order[k]? = some w) (hjoins : adj.Joins u w) :
    ∃ m x, i ≤ m ∧ m < j ∧ order[m]? = some x ∧ adj.Joins x v := by
  -- the neighbour is unplaced when `v` is, so the index at `i` is not exhausted
  have hopen : ¬Exhausted adj (order.take j) u := by
    intro hu
    obtain ⟨m, hm⟩ := List.getElem?_of_mem (hu w hjoins)
    rw [List.getElem?_take] at hm
    split at hm
    next hmj => exact ne_of_getElem? hnodup (by omega) hm hk rfl
    next => cases hm
  have htake : (order.take j)[i]? = some u := by rw [List.getElem?_take, if_pos hij, hi]
  cases h.follows hj with
  | neighbor _ older x recent hplaced hrecent hx =>
      have hlength : older.length < (order.take j).length := by simp [hplaced]
      have hm : (order.take j)[older.length]? = some x := by simp [hplaced]
      rw [List.length_take] at hlength
      refine ⟨older.length, x, ?_, by omega, ?_, hx⟩
      · by_contra hlt
        refine hopen (hrecent u ?_)
        rw [hplaced, List.getElem?_append_right (by omega), List.getElem?_cons,
          if_neg (by omega)] at htake
        exact List.mem_of_getElem? htake
      · rwa [List.getElem?_take, if_pos (by omega)] at hm
  | start _ hplaced => exact absurd (hplaced u (List.mem_of_getElem? htake)) hopen

end Arrangement

end RingLayout
