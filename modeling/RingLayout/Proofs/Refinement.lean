import RingLayout.Proofs.Arrangement
import RingLayout.Proofs.Crossings

/-! # Refinement

Refinement compares the crossings of the chords at one member before and after it is put elsewhere.
The crossings of all other chords hang on the rest of the order alone, so that the crossings in all
change by just as much, and refinement ends where no single move helps any more.
-/

open scoped List

namespace RingLayout

namespace CyclicOrder

theorem idxOf_erase {order : List Nat} {u v : Nat} (hu : u ∈ order) (huv : u ≠ v) :
    (order.erase v).idxOf u = closeUp (order.idxOf v) (order.idxOf u) := by
  induction order with
  | nil => cases hu
  | cons w rest ih =>
      by_cases hw : w = v
      · subst hw
        rw [List.erase_cons_head, List.idxOf_cons_self, List.idxOf_cons_ne _ (Ne.symm huv)]
        rfl
      · rw [List.erase_cons_tail (by simpa using hw), List.idxOf_cons_ne _ hw]
        by_cases huw : u = w
        · subst huw
          rw [List.idxOf_cons_self, List.idxOf_cons_self, closeUp, if_pos (Nat.succ_pos _)]
        · have hrest := (List.mem_cons.mp hu).resolve_left huw
          have hne : rest.idxOf u ≠ rest.idxOf v := mt (List.idxOf_inj hrest).mp huv
          rw [List.idxOf_cons_ne _ (Ne.symm huw), List.idxOf_cons_ne _ (Ne.symm huw), ih hrest,
            closeUp, closeUp]
          split <;> split <;> omega

end CyclicOrder

namespace Chord

/-- The number of crossings between chords of one list and chords of another. -/
def crossingsBetween (ps qs : List Chord) : Nat :=
  ps.foldr (fun p n => qs.countP (crosses p) + n) 0

theorem crossingsBetween_cons_right (ps : List Chord) (q : Chord) (qs : List Chord) :
    crossingsBetween ps (q :: qs) = ps.countP (crosses q) + crossingsBetween ps qs := by
  induction ps with
  | nil => rfl
  | cons p ps ih =>
      rw [crossingsBetween, List.foldr_cons, ← crossingsBetween, ih, List.countP_cons,
        List.countP_cons, crosses_comm q p, crossingsBetween, crossingsBetween, List.foldr_cons]
      omega

/-- The crossings among chords, by those of one kind and the others. -/
theorem crossings_eq_add {α : Type} (kind : α → Bool) (chord : α → Chord) (l : List α) :
    crossings (l.map chord) = crossings ((l.filter kind).map chord) +
      crossingsBetween ((l.filter kind).map chord) ((l.filter fun a => !kind a).map chord) +
      crossings ((l.filter fun a => !kind a).map chord) := by
  induction l with
  | nil => rfl
  | cons a l ih =>
      have hcount : (l.map chord).countP (crosses (chord a)) =
          ((l.filter kind).map chord).countP (crosses (chord a)) +
            ((l.filter fun a => !kind a).map chord).countP (crosses (chord a)) := by
        rw [List.countP_map, List.countP_map, List.countP_map]
        exact List.countP_eq_countP_filter_add l _ kind
      rw [List.map_cons, crossings, ih, hcount]
      cases hkind : kind a with
      | true =>
          rw [List.filter_cons_of_pos hkind, List.filter_cons_of_neg (by simp [hkind]),
            List.map_cons, crossings, crossingsBetween, crossingsBetween, List.foldr_cons]
          omega
      | false =>
          rw [List.filter_cons_of_neg (by simp [hkind]), List.filter_cons_of_pos (by simp [hkind]),
            List.map_cons, crossings, crossingsBetween_cons_right]
          omega

theorem crossings_eq_zero {chords : List Chord}
    (h : ∀ p ∈ chords, ∀ q ∈ chords, p.crosses q = false) : crossings chords = 0 := by
  induction chords with
  | nil => rfl
  | cons p rest ih =>
      have hrest := ih fun q hq r hr => h q (List.mem_cons_of_mem p hq) r (List.mem_cons_of_mem p hr)
      rw [crossings, hrest, Nat.add_zero, List.countP_eq_zero]
      intro q hq
      rw [h p List.mem_cons_self q (List.mem_cons_of_mem p hq)]
      exact Bool.false_ne_true

end Chord

namespace Arrangement

variable {n : Nat} {order rest : List Nat} {edges : List (Nat × Nat)} {v : Nat}

/-! ## Slots -/

theorem getD_foldl_setIfInBounds (order : List Nat) (horder : order.Nodup) (start : Nat)
    (slot : Array Nat) (hlt : ∀ u ∈ order, u < slot.size) (v : Nat) :
    ((order.zipIdx start).foldl (fun slot (p : Nat × Nat) => slot.setIfInBounds p.1 p.2)
      slot).getD v 0 = if v ∈ order then start + order.idxOf v else slot.getD v 0 := by
  induction order generalizing start slot with
  | nil => rfl
  | cons u order ih =>
      obtain ⟨hu, hrest⟩ := List.nodup_cons.mp horder
      obtain ⟨hsize, hlt'⟩ := List.forall_mem_cons.mp hlt
      rw [List.zipIdx_cons, List.foldl_cons, ih hrest _ _ (by simpa using hlt')]
      by_cases hv : v = u
      · subst hv
        simp [hu, hsize]
      · have hidx : (u :: order).idxOf v = order.idxOf v + 1 := List.idxOf_cons_ne _ (Ne.symm hv)
        simp only [List.mem_cons, hv, false_or, hidx, Array.getD_eq_getD_getElem?,
          Array.getElem?_setIfInBounds_ne (Ne.symm hv)]
        congr 1
        omega

/-- The chord of an edge, by the positions of its ends in an order. -/
def chordIn (order : List Nat) (e : Nat × Nat) : Chord := (order.idxOf e.1, order.idxOf e.2)

/-- Every member sits at its position. -/
theorem chord_slots (horder : order.Perm (List.range n)) {e : Nat × Nat}
    (he : e.1 < n ∧ e.2 < n) : chord (slots order) e = chordIn order e := by
  have hmem : ∀ u, u ∈ order ↔ u < n := fun u => by rw [horder.mem_iff, List.mem_range]
  have hlength : order.length = n := horder.length_eq.trans List.length_range
  have hslot : ∀ u < n, (slots order).getD u 0 = order.idxOf u := by
    intro u hu
    have hget := getD_foldl_setIfInBounds order (horder.nodup_iff.mpr List.nodup_range) 0
      (Array.replicate order.length 0) (fun u hu => by simpa [hlength] using (hmem u).mp hu) u
    rwa [if_pos ((hmem u).mpr hu), Nat.zero_add] at hget
  rw [chord, chordIn, hslot _ he.1, hslot _ he.2]

/-- Whether an edge ends at a member. -/
def isAt (v : Nat) (e : Nat × Nat) : Bool := e.1 == v || e.2 == v

/-- The crossings of the chords that do not end at a member. They hang on the order of the others
alone. -/
def crossingsWithout (rest : List Nat) (edges : List (Nat × Nat)) (v : Nat) : Nat :=
  Chord.crossings ((edges.filter fun e => !isAt v e).map (chordIn rest))

/-- Chords with a common end do not cross. -/
theorem crossings_isAt (order : List Nat) (edges : List (Nat × Nat)) (v : Nat) :
    Chord.crossings ((edges.filter (isAt v)).map (chordIn order)) = 0 := by
  refine Chord.crossings_eq_zero fun p hp q hq => ?_
  obtain ⟨e, he, rfl⟩ := List.mem_map.mp hp
  obtain ⟨f, hf, rfl⟩ := List.mem_map.mp hq
  have hev := (List.mem_filter.mp he).2
  have hfv := (List.mem_filter.mp hf).2
  simp only [isAt, Bool.or_eq_true, beq_iff_eq] at hev hfv
  have htouch : (chordIn order e).touches (chordIn order f) = true := by
    rw [Chord.touches_iff, chordIn, chordIn]
    rcases hev with h | h <;> rcases hfv with h' | h' <;> simp [h, h']
  rw [Chord.crosses, htouch]
  rfl

section Counting

variable (horder : order.Perm (List.range n)) (hedges : ∀ e ∈ edges, e.1 < n ∧ e.2 < n)
include horder hedges

theorem totalCrossings_eq :
    totalCrossings order edges = Chord.crossings (edges.map (chordIn order)) := by
  rw [totalCrossings]
  exact congrArg Chord.crossings (List.map_congr_left fun e he => chord_slots horder (hedges e he))

theorem crossingsOf_eq (v : Nat) :
    crossingsOf order edges v = Chord.crossingsBetween ((edges.filter (isAt v)).map (chordIn order))
      ((edges.filter fun e => !isAt v e).map (chordIn order)) := by
  have hchords : ∀ {l : List (Nat × Nat)}, l.Sublist edges →
      l.map (chord (slots order)) = l.map (chordIn order) := fun hl =>
    List.map_congr_left fun e he => chord_slots horder (hedges e (hl.subset he))
  have hcount : crossingsOf order edges v =
      Chord.crossingsBetween ((edges.filter (isAt v)).map (chord (slots order)))
        ((edges.filter fun e => !isAt v e).map (chord (slots order))) := by
    rw [crossingsOf, Chord.crossingsBetween, List.foldr_map]
    simp only [List.partition_eq_filter_filter]
    rfl
  rw [hcount, hchords List.filter_sublist, hchords List.filter_sublist]

/-- The chords that do not end at a member close ranks when it is taken out. -/
theorem crossings_not_isAt (v : Nat) :
    Chord.crossings ((edges.filter fun e => !isAt v e).map (chordIn order)) =
      crossingsWithout (order.erase v) edges v := by
  have hmem : ∀ {u}, u < n → u ∈ order := fun hu => horder.mem_iff.mpr (List.mem_range.mpr hu)
  have hends : ∀ e ∈ edges.filter fun e => !isAt v e,
      (e.1 ∈ order ∧ e.1 ≠ v) ∧ e.2 ∈ order ∧ e.2 ≠ v := by
    intro e he
    obtain ⟨he, hnot⟩ := List.mem_filter.mp he
    simp only [isAt, Bool.not_eq_true', Bool.or_eq_false_iff, beq_eq_false_iff_ne] at hnot
    exact ⟨⟨hmem (hedges e he).1, hnot.1⟩, hmem (hedges e he).2, hnot.2⟩
  have hclose : (edges.filter fun e => !isAt v e).map (chordIn (order.erase v)) =
      ((edges.filter fun e => !isAt v e).map (chordIn order)).map
        (Chord.map (CyclicOrder.closeUp (order.idxOf v))) := by
    rw [List.map_map]
    refine List.map_congr_left fun e he => ?_
    obtain ⟨⟨h1, h1'⟩, h2, h2'⟩ := hends e he
    rw [chordIn, CyclicOrder.idxOf_erase h1 h1', CyclicOrder.idxOf_erase h2 h2']
    rfl
  have haway : ∀ p ∈ (edges.filter fun e => !isAt v e).map (chordIn order),
      p.1 ≠ order.idxOf v ∧ p.2 ≠ order.idxOf v := by
    intro p hp
    obtain ⟨e, he, rfl⟩ := List.mem_map.mp hp
    obtain ⟨⟨h1, h1'⟩, h2, h2'⟩ := hends e he
    exact ⟨mt (List.idxOf_inj h1).mp h1', mt (List.idxOf_inj h2).mp h2'⟩
  rw [crossingsWithout, hclose]
  exact (Chord.crossings_map fun p hp q hq =>
    Chord.crosses_closeUp (haway p hp) (haway q hq)).symm

/-- All crossings are those of the chords at a member and those of the others. -/
theorem totalCrossings_eq_add (v : Nat) :
    totalCrossings order edges =
      crossingsOf order edges v + crossingsWithout (order.erase v) edges v := by
  rw [totalCrossings_eq horder hedges, crossingsOf_eq horder hedges,
    Chord.crossings_eq_add (isAt v) (chordIn order) edges, crossings_isAt,
    crossings_not_isAt horder hedges, Nat.zero_add]

end Counting

/-! ## Moving one member -/

theorem erase_insertIdx {slot : Nat} (hv : v ∉ rest) (hslot : slot ≤ rest.length) :
    (rest.insertIdx slot v).erase v = rest := by
  induction rest generalizing slot with
  | nil =>
      obtain rfl := Nat.le_zero.mp hslot
      exact List.erase_cons_head v []
  | cons w rest ih =>
      obtain ⟨hne, hrest⟩ := not_or.mp (mt List.mem_cons.mpr hv)
      cases slot with
      | zero => exact List.erase_cons_head v _
      | succ slot =>
          rw [List.insertIdx_succ_cons, List.erase_cons_tail (by simpa using Ne.symm hne),
            ih hrest (Nat.le_of_succ_le_succ hslot)]

theorem insertIdx_erase (hv : v ∈ order) : (order.erase v).insertIdx (order.idxOf v) v = order := by
  induction order with
  | nil => cases hv
  | cons w order ih =>
      by_cases hw : w = v
      · rw [hw, List.erase_cons_head, List.idxOf_cons_self, List.insertIdx_zero]
      · rw [List.erase_cons_tail (by simpa using hw), List.idxOf_cons_ne _ hw,
          List.insertIdx_succ_cons, ih ((List.mem_cons.mp hv).resolve_left (Ne.symm hw))]

/-- The second order is the first with a member put elsewhere. There are fewer crossings in all,
by as many as the chords at the member have fewer. -/
structure Moves (edges : List (Nat × Nat)) (v : Nat) (order order' : List Nat) : Prop where
  elsewhere : ∃ slot < order.length, slot ≠ order.idxOf v ∧
    order' = (order.erase v).insertIdx slot v
  fewer : crossingsOf order' edges v < crossingsOf order edges v
  total_eq : totalCrossings order edges = totalCrossings order' edges +
    (crossingsOf order edges v - crossingsOf order' edges v)

theorem Moves.total_lt {order' : List Nat} (h : Moves edges v order order') :
    totalCrossings order' edges < totalCrossings order edges := by
  have hfewer := h.fewer
  have htotal := h.total_eq
  omega

/-- A slot that is chosen beats the bound. -/
theorem lt_of_bestSlot? {bound slot : Nat} {slots : List Nat}
    (h : bestSlot? rest edges v bound slots = some slot) :
    crossingsOf (rest.insertIdx slot v) edges v < bound := by
  induction slots generalizing bound with
  | nil => cases h
  | cons s slots ih =>
      rw [bestSlot?] at h
      split at h
      next hlt =>
        split at h
        next better hbetter =>
          cases h
          exact Nat.lt_trans (ih hbetter) hlt
        next =>
          cases h
          exact hlt
      next => exact ih h

/-- Where no slot is chosen, none beats the bound. -/
theorem le_of_bestSlot?_eq_none {bound : Nat} {slots : List Nat}
    (h : bestSlot? rest edges v bound slots = none) :
    ∀ slot ∈ slots, bound ≤ crossingsOf (rest.insertIdx slot v) edges v := by
  induction slots generalizing bound with
  | nil => simp
  | cons s slots ih =>
      rw [bestSlot?] at h
      split at h
      next hlt =>
        split at h <;> cases h
      next hle => exact List.forall_mem_cons.mpr ⟨Nat.le_of_not_lt hle, ih h⟩

section Moving

variable (horder : order.Perm (List.range n)) (hedges : ∀ e ∈ edges, e.1 < n ∧ e.2 < n)
include horder

theorem perm_insertIdx_erase (hv : v < n) {slot : Nat} (hslot : slot < n) :
    ((order.erase v).insertIdx slot v).Perm (List.range n) := by
  have hmem : v ∈ order := horder.mem_iff.mpr (List.mem_range.mpr hv)
  have hlength : order.length = n := horder.length_eq.trans List.length_range
  have hle : slot ≤ (order.erase v).length := by
    rw [List.length_erase_of_mem hmem]
    omega
  exact ((List.perm_insertIdx v _ hle).trans (List.perm_cons_erase hmem).symm).trans horder

include hedges

/-- Putting a member elsewhere changes the crossings in all by what it changes at the member. -/
theorem totalCrossings_insertIdx_erase (hv : v < n) {slot : Nat} (hslot : slot < n) :
    totalCrossings ((order.erase v).insertIdx slot v) edges + crossingsOf order edges v =
      totalCrossings order edges + crossingsOf ((order.erase v).insertIdx slot v) edges v := by
  have hnodup : order.Nodup := horder.nodup_iff.mpr List.nodup_range
  have hlength : order.length = n := horder.length_eq.trans List.length_range
  have hmem : v ∈ order := horder.mem_iff.mpr (List.mem_range.mpr hv)
  have hle : slot ≤ (order.erase v).length := by
    rw [List.length_erase_of_mem hmem]
    omega
  rw [totalCrossings_eq_add (perm_insertIdx_erase horder hv hslot) hedges v,
    totalCrossings_eq_add horder hedges v, erase_insertIdx hnodup.not_mem_erase hle]
  omega

/-- A member stays where it is, which is as good as any slot for it, or it moves. -/
theorem improve_cases (hv : v < n) :
    improve edges order v = order ∧
        (∀ slot < n, totalCrossings order edges ≤
          totalCrossings ((order.erase v).insertIdx slot v) edges) ∨
      Moves edges v order (improve edges order v) := by
  have hmem : v ∈ order := horder.mem_iff.mpr (List.mem_range.mpr hv)
  have hlength : order.length = n := horder.length_eq.trans List.length_range
  have hrest : order.eraseIdx (order.idxOf v) = order.erase v :=
    (List.erase_eq_eraseIdx_of_idxOf rfl).symm
  have htotal := fun slot (hslot : slot < n) =>
    totalCrossings_insertIdx_erase horder hedges hv hslot
  unfold improve
  rw [if_pos (List.contains_iff_mem.mpr hmem)]
  dsimp only
  rw [hrest]
  split
  next hzero =>
    refine .inl ⟨rfl, fun slot hslot => ?_⟩
    have heq := htotal slot hslot
    omega
  next =>
    split
    next slot hslot =>
      have hfewer := lt_of_bestSlot? hslot
      obtain ⟨hrange, hne⟩ := List.mem_filter.mp (bestSlot?_mem hslot)
      have hlt := List.mem_range.mp hrange
      have heq := htotal slot (hlength ▸ hlt)
      exact .inr ⟨⟨slot, hlt, by simpa using hne, rfl⟩, hfewer, by omega⟩
    next hnone =>
      refine .inl ⟨rfl, fun slot hslot => ?_⟩
      by_cases hself : slot = order.idxOf v
      · exact Nat.le_of_eq (by rw [hself, insertIdx_erase hmem])
      · have hslot' : slot ∈ (List.range order.length).filter (· ≠ order.idxOf v) :=
          List.mem_filter.mpr ⟨List.mem_range.mpr (hlength ▸ hslot), by simpa using hself⟩
        have hle := le_of_bestSlot?_eq_none hnone slot hslot'
        have heq := htotal slot hslot
        omega

/-- A step lowers the crossings or changes nothing. -/
theorem improve_eq_or_lt (hv : v < n) : improve edges order v = order ∨
    totalCrossings (improve edges order v) edges < totalCrossings order edges :=
  (improve_cases horder hedges hv).imp And.left Moves.total_lt

end Moving

/-! ## Passes -/

section Passes

variable (hedges : ∀ e ∈ edges, e.1 < n ∧ e.2 < n)
include hedges

/-- So do many steps, and they change nothing only if none of them does. -/
theorem foldl_improve_eq_or_lt (members : List Nat) (hmembers : ∀ v ∈ members, v < n)
    {order : List Nat} (horder : order.Perm (List.range n)) :
    members.foldl (improve edges) order = order ∧ (∀ v ∈ members, improve edges order v = order) ∨
      totalCrossings (members.foldl (improve edges) order) edges < totalCrossings order edges := by
  induction members generalizing order with
  | nil => exact .inl ⟨rfl, by simp⟩
  | cons v members ih =>
      obtain ⟨hv, hrest⟩ := List.forall_mem_cons.mp hmembers
      have hnext := ih hrest ((improve_perm edges order v).trans horder)
      rw [List.foldl_cons]
      rcases improve_eq_or_lt horder hedges hv with hsame | hlt
      · rw [hsame] at hnext ⊢
        exact hnext.imp_left fun h => ⟨h.1, List.forall_mem_cons.mpr ⟨hsame, h.2⟩⟩
      · refine .inr ?_
        rcases hnext with ⟨hsame, -⟩ | hlt'
        · rwa [hsame]
        · exact Nat.lt_trans hlt' hlt

omit hedges in
/-- Passes improve all members in turn, as often as there are passes or fewer times. -/
theorem exists_improvePasses_eq (edges : List (Nat × Nat)) (passes : Nat) (order : List Nat) :
    ∃ k ≤ passes, improvePasses edges passes order =
      ((List.replicate k (List.range order.length)).flatten).foldl (improve edges) order := by
  induction passes generalizing order with
  | zero => exact ⟨0, Nat.le_refl 0, rfl⟩
  | succ passes ih =>
      rw [improvePasses]
      split
      next => exact ⟨0, Nat.zero_le _, rfl⟩
      next =>
        have hlength := (foldl_improve_perm edges (List.range order.length) order).length_eq
        obtain ⟨k, hk, heq⟩ := ih ((List.range order.length).foldl (improve edges) order)
        refine ⟨k + 1, Nat.succ_le_succ hk, ?_⟩
        rw [heq, hlength, List.replicate_succ, List.flatten_cons, List.foldl_append]

/-- With more passes than crossings, the last pass changes nothing. -/
theorem improve_eq_of_lt_passes {passes : Nat} {order : List Nat}
    (horder : order.Perm (List.range n)) (hpasses : totalCrossings order edges < passes) :
    ∀ v < n, improve edges (improvePasses edges passes order) v =
      improvePasses edges passes order := by
  have hlength : order.length = n := horder.length_eq.trans List.length_range
  induction passes generalizing order with
  | zero => exact absurd hpasses (Nat.not_lt_zero _)
  | succ passes ih =>
      have hpass := foldl_improve_eq_or_lt hedges (List.range order.length)
        (fun v hv => hlength ▸ List.mem_range.mp hv) horder
      rw [improvePasses]
      split
      next hsame =>
        rcases hpass with ⟨-, hall⟩ | hlt
        · exact fun v hv => hall v (List.mem_range.mpr (hlength ▸ hv))
        · rw [hsame] at hlt
          exact absurd hlt (Nat.lt_irrefl _)
      next hne =>
        have hperm := foldl_improve_perm edges (List.range order.length) order
        have hfewer := hpass.resolve_left fun h => hne h.1
        exact ih (hperm.trans horder) (by omega) (hperm.length_eq.trans hlength)

end Passes

/-! ## The whole refinement -/

/-- The greatest number of ends that edges have at a member. -/
def maxEnds (n : Nat) (edges : List (Nat × Nat)) : Nat :=
  ((List.range n).map (endsAt edges)).foldl max 0

/-- What refinement makes of an order of `n` members. -/
structure Refines (n : Nat) (edges : List (Nat × Nat)) (passes : Nat)
    (order refined : List Nat) : Prop where
  perm : refined.Perm (List.range n)
  /-- The members are improved one after the other, in so many passes. -/
  improved : ∃ k ≤ passes,
    refined = ((List.replicate k (List.range n)).flatten).foldl (improve edges) order
  /-- On any order, a member that does not stay moves to a slot where its chords cross fewer
  others, and the crossings in all get fewer by just as many. -/
  moves : ∀ order', order'.Perm (List.range n) → ∀ v < n,
    improve edges order' v = order' ∨ Moves edges v order' (improve edges order' v)
  total_le : totalCrossings refined edges ≤ totalCrossings order edges
  eq_of_total_eq : totalCrossings refined edges = totalCrossings order edges → refined = order
  /-- With enough passes no single move lowers the crossings any more. -/
  optimal : n * maxEnds n edges * edges.length ≤ workBudget →
    totalCrossings order edges < passes → ∀ v < n, ∀ slot < n,
      totalCrossings refined edges ≤ totalCrossings ((refined.erase v).insertIdx slot v) edges

/-- Two chords that cross have four ends. -/
theorem four_le_of_crosses {p q : Chord} (hp : p.1 < n ∧ p.2 < n) (hq : q.1 < n ∧ q.2 < n)
    (hcross : p.crosses q = true) : 4 ≤ n := by
  rw [Chord.crosses_iff] at hcross
  omega

/-- Fewer than four members, or fewer than two edges, have nothing to cross. -/
theorem totalCrossings_eq_zero (horder : order.Perm (List.range n))
    (hedges : ∀ e ∈ edges, e.1 < n ∧ e.2 < n) (hfew : n < 4 ∨ edges.length < 2) :
    totalCrossings order edges = 0 := by
  have hlt : ∀ u < n, order.idxOf u < n := by
    intro u hu
    have hmem : u ∈ order := horder.mem_iff.mpr (List.mem_range.mpr hu)
    exact (horder.length_eq.trans List.length_range) ▸ List.idxOf_lt_length_of_mem hmem
  rw [totalCrossings_eq horder hedges]
  rcases hfew with hn | hlength
  · refine Chord.crossings_eq_zero fun p hp q hq => Bool.eq_false_iff.mpr fun hcross => ?_
    obtain ⟨e, he, rfl⟩ := List.mem_map.mp hp
    obtain ⟨f, hf, rfl⟩ := List.mem_map.mp hq
    have hfour := four_le_of_crosses (n := n)
      ⟨hlt _ (hedges e he).1, hlt _ (hedges e he).2⟩
      ⟨hlt _ (hedges f hf).1, hlt _ (hedges f hf).2⟩ hcross
    omega
  · match edges, hlength with
    | [], _ => rfl
    | [_], _ => rfl

theorem refine_eq (order : List Nat) (edges : List (Nat × Nat)) (passes : Nat) :
    Arrangement.refine order edges passes =
      if order.length < 4 || edges.length < 2 ||
        workBudget < order.length * maxEnds order.length edges * edges.length then order
      else improvePasses edges passes order := rfl

/-- Refinement is so many improvements in turn, for orders that it leaves alone none at all. -/
theorem exists_refine_eq (edges : List (Nat × Nat)) (passes : Nat) (order : List Nat) :
    ∃ k ≤ passes, Arrangement.refine order edges passes =
      ((List.replicate k (List.range order.length)).flatten).foldl (improve edges) order := by
  rw [refine_eq]
  split
  · exact ⟨0, Nat.zero_le _, rfl⟩
  · exact exists_improvePasses_eq edges passes order

/-- Refinement gives up an order for fewer crossings only. -/
theorem refine_eq_or_lt (passes : Nat) (horder : order.Perm (List.range n))
    (hedges : ∀ e ∈ edges, e.1 < n ∧ e.2 < n) :
    Arrangement.refine order edges passes = order ∨
      totalCrossings (Arrangement.refine order edges passes) edges <
        totalCrossings order edges := by
  obtain ⟨k, -, heq⟩ := exists_refine_eq edges passes order
  rw [heq]
  refine (foldl_improve_eq_or_lt hedges _ (fun v hv => ?_) horder).imp_left And.left
  obtain ⟨l, hl, hv⟩ := List.mem_flatten.mp hv
  rw [List.eq_of_mem_replicate hl, List.mem_range] at hv
  exact Nat.lt_of_lt_of_eq hv (horder.length_eq.trans List.length_range)

/-- Refinement lowers the crossings move by move, and with enough passes as far as single moves
can. -/
theorem refines (passes : Nat) (horder : order.Perm (List.range n))
    (hedges : ∀ e ∈ edges, e.1 < n ∧ e.2 < n) :
    Refines n edges passes order (Arrangement.refine order edges passes) := by
  have hlength : order.length = n := horder.length_eq.trans List.length_range
  have hlower := refine_eq_or_lt passes horder hedges
  constructor
  case perm => exact (refine_perm order edges passes).trans horder
  case improved => exact hlength ▸ exists_refine_eq edges passes order
  case moves =>
    exact fun order' horder' v hv => (improve_cases horder' hedges hv).imp_left And.left
  case total_le =>
    rcases hlower with hsame | hlt
    · exact Nat.le_of_eq (congrArg (totalCrossings · edges) hsame)
    · exact Nat.le_of_lt hlt
  case eq_of_total_eq =>
    exact fun heq => hlower.resolve_right fun hlt => absurd hlt (heq ▸ Nat.lt_irrefl _)
  case optimal =>
    intro hwork hpasses v hv slot hslot
    rw [refine_eq, hlength]
    split
    next hskip =>
      have hfew : n < 4 ∨ edges.length < 2 := by
        simp only [Bool.or_eq_true, decide_eq_true_eq] at hskip
        omega
      rw [totalCrossings_eq_zero horder hedges hfew]
      exact Nat.zero_le _
    next =>
      have hperm := (improvePasses_perm edges passes order).trans horder
      have hsame := improve_eq_of_lt_passes hedges horder hpasses v hv
      rcases improve_cases hperm hedges hv with ⟨-, hbest⟩ | hmoves
      · exact hbest slot hslot
      · have hlt := hmoves.total_lt
        rw [hsame] at hlt
        exact absurd hlt (Nat.lt_irrefl _)

/-- A cycle of five members and a loop. -/
def pentagon : List (Nat × Nat) := [(0, 1), (1, 2), (2, 3), (3, 4), (4, 0), (1, 1)]

/-- Drawn as a star, in which every two sides without a common corner cross, it is untangled. -/
example : Arrangement.refine [0, 2, 4, 1, 3] pentagon 6 = [4, 0, 1, 2, 3] := by decide +kernel

theorem refines_pentagon :
    [0, 2, 4, 1, 3].Perm (List.range 5) ∧ (∀ e ∈ pentagon, e.1 < 5 ∧ e.2 < 5) ∧
      5 * maxEnds 5 pentagon * pentagon.length ≤ workBudget ∧
      totalCrossings [0, 2, 4, 1, 3] pentagon < 6 ∧
      Refines 5 pentagon 6 [0, 2, 4, 1, 3] (Arrangement.refine [0, 2, 4, 1, 3] pentagon 6) := by
  have hperm : [0, 2, 4, 1, 3].Perm (List.range 5) := by decide
  have hedges : ∀ e ∈ pentagon, e.1 < 5 ∧ e.2 < 5 := by decide
  exact ⟨hperm, hedges, by decide +kernel, by decide +kernel, refines 6 hperm hedges⟩

end Arrangement

end RingLayout
