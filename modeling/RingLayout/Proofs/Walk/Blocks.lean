import Mathlib.Data.List.Permutation
import Mathlib.Data.List.TakeWhile
import RingLayout.Proofs.Walk

/-! # The order of the walk

The rule of the walk leaves no choice, so that there is one order of all indices that it allows.
Between neighbours that have each other, this order goes through a component as a whole before it
comes to another one: as long as a component has an unplaced index, one of its placed indices is
the latest that is not exhausted.
-/

namespace RingLayout.Arrangement

open Adjacency

variable {adj : Adjacency} {placed order stack : List Nat} {u v w : Nat}

/-! ## One order -/

theorem before_antisymm (huv : before adj u v = true) (hvu : before adj v u = true) : u = v := by
  rw [before_iff] at huv hvu
  omega

/-- An index with an unplaced neighbour is not exhausted. -/
theorem not_exhausted (hjoins : adj.Joins w v) (hnot : v ∉ placed) : ¬Exhausted adj placed w :=
  fun h => hnot (h v hjoins)

/-- A list ends in one way in an entry of a kind and others that are not. -/
theorem eq_of_append_cons_eq {p : Nat → Prop} {older older' recent recent' : List Nat}
    (h : older ++ v :: recent = older' ++ w :: recent') (hv : ¬p v) (hw : ¬p w)
    (hrecent : ∀ x ∈ recent, p x) (hrecent' : ∀ x ∈ recent', p x) : v = w := by
  rcases List.append_eq_append_iff.mp h with ⟨between, -, hrest⟩ | ⟨between, -, hrest⟩
  · cases between with
    | nil => exact (List.cons.inj hrest).1
    | cons x between =>
        have hmem : w ∈ recent := (List.cons.inj hrest).2 ▸ by simp
        exact absurd (hrecent w hmem) hw
  · cases between with
    | nil => exact (List.cons.inj hrest).1.symm
    | cons x between =>
        have hmem : v ∈ recent' := (List.cons.inj hrest).2 ▸ by simp
        exact absurd (hrecent' v hmem) hv

/-- The placed indices determine the next one. -/
theorem Follows.unique (h : Follows adj placed v) (h' : Follows adj placed w) : v = w := by
  cases h with
  | neighbor hnot older x recent hplaced hrecent hjoins hfirst =>
      have hopen := not_exhausted hjoins hnot
      cases h' with
      | neighbor hnot' older' x' recent' hplaced' hrecent' hjoins' hfirst' =>
          obtain rfl := eq_of_append_cons_eq (hplaced.symm.trans hplaced') hopen
            (not_exhausted hjoins' hnot') hrecent hrecent'
          exact before_antisymm (hfirst w hjoins' hnot') (hfirst' v hjoins hnot)
      | start _ hplaced' => exact absurd (hplaced' x (by simp [hplaced])) hopen
  | start hnot hplaced hlt hfirst =>
      cases h' with
      | neighbor hnot' _ x' _ hplaced' _ hjoins' =>
          exact absurd (hplaced x' (by simp [hplaced'])) (not_exhausted hjoins' hnot')
      | start hnot' _ hlt' hfirst' =>
          exact before_antisymm (hfirst w hlt' hnot') (hfirst' v hlt hnot)

/-- Orders of equal length in which every index follows the ones before it are the same. -/
theorem eq_of_follows {order' : List Nat} (hlength : order.length = order'.length)
    (h : ∀ i v, order[i]? = some v → Follows adj (order.take i) v)
    (h' : ∀ i v, order'[i]? = some v → Follows adj (order'.take i) v) : order = order' := by
  have htake : ∀ i, order.take i = order'.take i := by
    intro i
    induction i with
    | zero => rfl
    | succ i ih =>
        rw [List.take_add_one, List.take_add_one, ih]
        rcases Nat.lt_or_ge i order.length with hi | hi
        · have hget := List.getElem?_eq_getElem hi
          have hget' := List.getElem?_eq_getElem (hlength ▸ hi)
          have hnext := h i _ hget
          rw [ih] at hnext
          rw [hget, hget', hnext.unique (h' i _ hget')]
        · rw [List.getElem?_eq_none hi, List.getElem?_eq_none (hlength ▸ hi)]
  have hall := htake order.length
  rwa [List.take_length, hlength, List.take_length] at hall

/-! ## The end of the walk -/

/-- When all indices are placed, the walk is at its end. -/
theorem walk_eq_reverse (left : Nat) (hplaced : ∀ v < adj.size, v ∈ placed)
    (hstack : ∀ v ∈ stack, v < adj.size) : walk adj left placed stack = placed.reverse := by
  cases left with
  | zero => rfl
  | succ left =>
      have hdrop : stack.dropWhile placed.contains = [] :=
        List.dropWhile_eq_nil_iff.mpr fun v hv =>
          List.contains_iff_mem.mpr (hplaced v (hstack v hv))
      have hnone : nextStart? adj placed = none := by
        rw [Option.eq_none_iff_forall_ne_some]
        intro v hv
        obtain ⟨hlt, hnot⟩ := nextStart?_spec hv
        exact hnot (hplaced v hlt)
      rw [walk, hdrop]
      dsimp only
      rw [hnone]

/-- A walk that may place all indices is not longer if it may place more. -/
theorem walk_eq_of_le (hadj : adj.InRange) {left more : Nat} (hplaced : placed.Nodup)
    (hlt : ∀ v ∈ placed, v < adj.size) (hstack : ∀ v ∈ stack, v < adj.size)
    (hleft : placed.length + left = adj.size) (hmore : left ≤ more) :
    walk adj more placed stack = walk adj left placed stack := by
  induction left generalizing placed stack more with
  | zero => exact walk_eq_reverse more (fun _ => mem_of_length_eq hplaced hlt hleft) hstack
  | succ left ih =>
      obtain ⟨more, rfl⟩ := Nat.exists_eq_add_of_le' (Nat.one_le_of_lt hmore)
      have hstep : ∀ v rest, v < adj.size → v ∉ placed → (∀ u ∈ rest, u < adj.size) →
          walk adj more (v :: placed) (successors adj (v :: placed) v ++ rest) =
            walk adj left (v :: placed) (successors adj (v :: placed) v ++ rest) := by
        intro v rest hv hnot hrest
        refine ih (List.nodup_cons.mpr ⟨hnot, hplaced⟩) (by simpa [hv] using hlt) ?_ ?_
          (Nat.le_of_succ_le_succ hmore)
        · intro u hu
          rcases List.mem_append.mp hu with hu | hu
          · exact hadj v u (mem_successors hu)
          · exact hrest u hu
        · rw [List.length_cons]
          omega
      rw [walk, walk]
      split
      next v rest hdrop =>
        have hsub : ∀ u ∈ v :: rest, u < adj.size := fun u hu =>
          hstack u ((List.dropWhile_sublist _).subset (hdrop ▸ hu))
        have hnot : v ∉ placed := by
          have hhead := List.head?_dropWhile_not placed.contains stack
          rw [hdrop] at hhead
          simpa using hhead
        exact hstep v rest (hsub v List.mem_cons_self) hnot fun u hu =>
          hsub u (List.mem_cons_of_mem v hu)
      next =>
        split
        next v hnext =>
          obtain ⟨hv, hnot⟩ := nextStart?_spec hnext
          simpa using hstep v [] hv hnot (by simp)
        next => rfl

/-! ## Components -/

/-- The placed indices of a component stand in one block. Indices behind it come after all of the
component. -/
structure Block (adj : Adjacency) (u : Nat) (placed first block last : List Nat) : Prop where
  eq_append : placed = first ++ block ++ last
  of_mem_first : ∀ v ∈ first, ¬adj.Reaches u v
  of_mem_block : ∀ v ∈ block, adj.Reaches u v
  of_mem_last : ∀ v ∈ last, ¬adj.Reaches u v
  complete : last ≠ [] → ∀ v, adj.Reaches u v → v ∈ placed

namespace Block

variable {first block last : List Nat}

/-- If the placed indices of a component are exhausted, it is placed as a whole. -/
theorem mem_of_exhausted (hadj : adj.Mutual) (h : Block adj u placed first block [])
    (hblock : block ≠ []) (hexhausted : ∀ x ∈ block, Exhausted adj placed x) :
    ∀ v, adj.Reaches u v → v ∈ placed := by
  obtain ⟨x, hx⟩ := List.exists_mem_of_ne_nil _ hblock
  have hmem : ∀ v ∈ placed, adj.Reaches u v → v ∈ block := by
    intro v hv hreaches
    rw [h.eq_append, List.append_nil] at hv
    exact (List.mem_append.mp hv).resolve_left fun hfirst => h.of_mem_first v hfirst hreaches
  intro v hv
  have hxv := (hadj.reaches_symm (h.of_mem_block x hx)).trans hv
  clear hv
  induction hxv with
  | refl => exact h.eq_append ▸ by simp [hx]
  | @tail v w hxv hjoins ih =>
      exact hexhausted v (hmem v ih ((h.of_mem_block x hx).trans hxv)) w hjoins

/-- An index of another component comes next only when the component is placed. -/
theorem mem_of_follows (hadj : adj.Mutual) (h : Block adj u placed first block [])
    (hblock : block ≠ []) (hv : Follows adj placed v) (hnot : ¬adj.Reaches u v) :
    ∀ w, adj.Reaches u w → w ∈ placed := by
  refine h.mem_of_exhausted hadj hblock fun x hx => ?_
  have hplaced := h.eq_append
  rw [List.append_nil] at hplaced
  cases hv with
  | start _ hall => exact hall x (hplaced ▸ List.mem_append_right _ hx)
  | neighbor _ older w recent hsplit hrecent hjoins _ =>
      -- what the walk goes on from is in another component too, so it stands before the block
      have hother : w ∉ block := fun hw => hnot ((h.of_mem_block w hw).tail hjoins)
      refine hrecent x ?_
      rcases List.append_eq_append_iff.mp (hsplit.symm.trans hplaced) with
        ⟨between, -, hrest⟩ | ⟨between, -, hrest⟩
      · cases between with
        | nil =>
            rw [List.nil_append] at hrest
            exact absurd (hrest ▸ List.mem_cons_self) hother
        | cons y between =>
            rw [(List.cons.inj hrest).2]
            exact List.mem_append_right _ hx
      · exact absurd (by rw [hrest]; simp) hother

/-- Placing an index that follows keeps every component in one block. -/
theorem snoc (hadj : adj.Mutual) (h : Block adj u placed first block last)
    (hv : Follows adj placed v) :
    ∃ first block last, Block adj u (placed ++ [v]) first block last := by
  have hplaced := h.eq_append
  by_cases hreaches : adj.Reaches u v
  · -- the component was not yet complete, so nothing stands behind its block
    have hlast : last = [] := by
      by_contra hne
      exact hv.not_mem (h.complete hne v hreaches)
    subst hlast
    refine ⟨first, block ++ [v], [], by simp [hplaced], h.of_mem_first, ?_, by simp, by simp⟩
    intro w hw
    rcases List.mem_append.mp hw with hw | hw
    · exact h.of_mem_block w hw
    · rwa [List.mem_singleton.mp hw]
  · by_cases hnone : block = [] ∧ last = []
    · obtain ⟨rfl, rfl⟩ := hnone
      refine ⟨first ++ [v], [], [], by simp [hplaced], ?_, by simp, by simp, by simp⟩
      intro w hw
      rcases List.mem_append.mp hw with hw | hw
      · exact h.of_mem_first w hw
      · rwa [List.mem_singleton.mp hw]
    · have hcomplete : ∀ w, adj.Reaches u w → w ∈ placed := by
        by_cases hlast : last = []
        · subst hlast
          exact h.mem_of_follows hadj (fun heq => hnone ⟨heq, rfl⟩) hv hreaches
        · exact h.complete hlast
      refine ⟨first, block, last ++ [v], by simp [hplaced], h.of_mem_first, h.of_mem_block, ?_,
        fun _ w hw => List.mem_append_left _ (hcomplete w hw)⟩
      intro w hw
      rcases List.mem_append.mp hw with hw | hw
      · exact h.of_mem_last w hw
      · rwa [List.mem_singleton.mp hw]

end Block

theorem Walked.exists_block (hadj : adj.Mutual) (h : Walked adj order) (u : Nat) :
    ∃ first block last, Block adj u order first block last := by
  induction h with
  | nil => exact ⟨[], [], [], rfl, by simp, by simp, by simp, by simp⟩
  | snoc _ hv ih =>
      obtain ⟨first, block, last, hblock⟩ := ih
      exact hblock.snoc hadj hv

/-- The order of the walk is the one order of all indices in which every index follows the ones
before it by the rule; the walk ends by itself, and goes through one component after the other. -/
theorem walkOrder_unique (adj : Adjacency) (hadj : adj.InRange) :
    (∀ order : List Nat, order = walkOrder adj ↔
      order.Perm (List.range adj.size) ∧
        ∀ i v, order[i]? = some v → Follows adj (order.take i) v) ∧
    (∀ left, adj.size ≤ left → walk adj left [] [] = walkOrder adj) ∧
    (adj.Mutual → ∀ u < adj.size, ∃ first block last,
      walkOrder adj = first ++ block ++ last ∧ ∀ v, v ∈ block ↔ adj.Reaches u v) := by
  have hperm := walkOrder_perm hadj
  have hwalked := walked_walkOrder adj
  refine ⟨fun order => ⟨?_, ?_⟩, fun left hleft => ?_, fun hmutual u hu => ?_⟩
  · rintro rfl
    exact ⟨hperm, fun _ _ => hwalked.follows⟩
  · rintro ⟨hperm', hfollows⟩
    exact eq_of_follows (hperm'.trans hperm.symm).length_eq hfollows fun _ _ => hwalked.follows
  · exact walk_eq_of_le hadj List.nodup_nil (by simp) (by simp) (by simp) hleft
  · obtain ⟨first, block, last, hblock⟩ := hwalked.exists_block hmutual u
    refine ⟨first, block, last, hblock.eq_append, fun v => ⟨hblock.of_mem_block v, fun hv => ?_⟩⟩
    have hmem : v ∈ first ++ block ++ last := hblock.eq_append ▸
      hperm.mem_iff.mpr (List.mem_range.mpr (hmutual.lt_of_reaches hu hv))
    rcases List.mem_append.mp hmem with hmem | hlast
    · exact (List.mem_append.mp hmem).resolve_left fun hfirst => hblock.of_mem_first v hfirst hv
    · exact absurd hv (hblock.of_mem_last v hlast)

/-- Two components: a pair joined twice, and a path with a repeated neighbour and a loop. -/
def islands : Adjacency := #[[2, 4, 4], [3, 3], [0], [1, 1], [0, 0, 4]]

theorem mutual_islands : islands.Mutual := by
  have hjoins : ∀ u v, islands.Joins u v ↔ u < 5 ∧ v ∈ islands.neighbors u := by
    intro u v
    refine (and_iff_right_of_imp fun hv => ?_).symm
    by_contra hu
    have hnone : islands.neighbors u = [] := by
      rw [neighbors, Array.getD_eq_getD_getElem?, Array.getElem?_eq_none (Nat.le_of_not_lt hu)]
      rfl
    rw [Joins, hnone] at hv
    exact List.not_mem_nil hv
  have hall : ∀ u < 5, ∀ v ∈ islands.neighbors u, v < 5 ∧ u ∈ islands.neighbors v := by decide
  constructor
  · intro u v huv
    obtain ⟨hu, hv⟩ := (hjoins u v).mp huv
    exact (hall u hu v hv).2
  · intro u v huv
    obtain ⟨hu, hv⟩ := (hjoins u v).mp huv
    exact (hall u hu v hv).1

/-- The walk starts from the lowest degree, takes the whole path and then the pair. -/
theorem walkOrder_unique_islands :
    islands.Mutual ∧ walkOrder islands = [2, 0, 4, 1, 3] ∧ walk islands 9 [] [] = [2, 0, 4, 1, 3] ∧
      ∃ first block last, [2, 0, 4, 1, 3] = first ++ block ++ last ∧
        ∀ v, v ∈ block ↔ islands.Reaches 3 v := by
  have horder : walkOrder islands = [2, 0, 4, 1, 3] := by cbv
  obtain ⟨-, hend, hblocks⟩ := walkOrder_unique islands mutual_islands.inRange
  refine ⟨mutual_islands, horder, horder ▸ hend 9 (by decide), ?_⟩
  exact horder ▸ hblocks mutual_islands 3 (by decide)

end RingLayout.Arrangement
