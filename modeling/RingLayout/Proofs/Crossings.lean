import Mathlib.Data.List.Nodup
import RingLayout.Chord
import RingLayout.CyclicOrder

/-! # Crossing chords

What becomes of the crossings of chords when the order under them changes. Mirroring an order
keeps every crossing. Taking a member out of it removes its chords, while the others close ranks
and cross as before.
-/

namespace RingLayout

namespace CyclicOrder

theorem idxOf?_eq_iff {order : List Nat} (horder : order.Nodup) {v i : Nat} :
    order.idxOf? v = some i ↔ order[i]? = some v := by
  constructor
  · intro hi
    obtain ⟨hlt, rfl, -⟩ := List.idxOf?_eq_some_iff.mp hi
    exact List.getElem?_eq_getElem hlt
  · intro hv
    obtain ⟨hi, rfl⟩ := List.getElem?_eq_some_iff.mp hv
    refine List.idxOf?_eq_some_iff.mpr ⟨hi, rfl, fun j hj heq => ?_⟩
    exact absurd ((horder.getElem_inj_iff).mp heq) (Nat.ne_of_lt hj)

/-- Where the member at an index of an order of `n` members stands in the reversed order. -/
def mirror (n i : Nat) : Nat := if i = 0 then 0 else n - i

theorem getElem?_reverse {order : List Nat} {i : Nat} (hi : i < order.length) :
    (reverse order)[mirror order.length i]? = order[i]? := by
  cases order with
  | nil => cases hi
  | cons first rest =>
      cases i with
      | zero => rfl
      | succ i =>
          have hi' : i < rest.length := Nat.lt_of_succ_lt_succ hi
          have hmirror : mirror (rest.length + 1) (i + 1) = (rest.length - 1 - i) + 1 := by
            rw [mirror, if_neg (Nat.succ_ne_zero i)]
            omega
          rw [List.length_cons, hmirror, reverse, List.getElem?_cons_succ, List.getElem?_cons_succ,
            List.getElem?_reverse (by omega)]
          congr 1
          omega

theorem idxOf?_reverse {order : List Nat} (horder : order.Nodup) (v : Nat) :
    (reverse order).idxOf? v = (order.idxOf? v).map (mirror order.length) := by
  have hreverse : (reverse order).Nodup := (reverse_perm order).nodup_iff.mpr horder
  cases hv : order.idxOf? v with
  | none =>
      rw [List.idxOf?_eq_none_iff] at hv
      exact List.idxOf?_eq_none_iff.mpr fun hmem => hv ((reverse_perm order).mem_iff.mp hmem)
  | some i =>
      have hget := (idxOf?_eq_iff horder).mp hv
      obtain ⟨hi, -⟩ := List.getElem?_eq_some_iff.mp hget
      exact (idxOf?_eq_iff hreverse).mpr ((getElem?_reverse hi).trans hget)

/-- Where the member at an index stands when the one at `i` is gone. -/
def closeUp (i k : Nat) : Nat := if k < i then k else k - 1

theorem idxOf?_eraseIdx {order : List Nat} (horder : order.Nodup) (i u : Nat) :
    (order.eraseIdx i).idxOf? u =
      (order.idxOf? u).bind fun k => if k = i then none else some (closeUp i k) := by
  have herase : (order.eraseIdx i).Nodup := horder.sublist (List.eraseIdx_sublist order i)
  cases hu : order.idxOf? u with
  | none =>
      rw [List.idxOf?_eq_none_iff] at hu
      exact List.idxOf?_eq_none_iff.mpr fun hmem => hu (List.mem_of_mem_eraseIdx hmem)
  | some k =>
      have hget := (idxOf?_eq_iff horder).mp hu
      by_cases hki : k = i
      · subst hki
        have hgone : u ∉ order.eraseIdx k := by
          intro hmem
          obtain ⟨j, hj⟩ := List.getElem?_of_mem hmem
          rw [List.getElem?_eraseIdx] at hj
          split at hj
          next hjk =>
            have heq := Option.some.inj (((idxOf?_eq_iff horder).mpr hj).symm.trans hu)
            omega
          next hjk =>
            have heq := Option.some.inj (((idxOf?_eq_iff horder).mpr hj).symm.trans hu)
            omega
        rw [List.idxOf?_eq_none_iff.mpr hgone, Option.bind_some, if_pos rfl]
      · have hclose : (order.eraseIdx i)[closeUp i k]? = some u := by
          rw [List.getElem?_eraseIdx, closeUp]
          by_cases hlt : k < i
          · rw [if_pos hlt, if_pos hlt, hget]
          · rw [if_neg hlt, if_neg (by omega), Nat.sub_add_cancel (by omega), hget]
        rw [(idxOf?_eq_iff herase).mpr hclose, Option.bind_some, if_neg hki]

end CyclicOrder

namespace Chord

/-- The chord between the images of the ends. -/
def map (f : Nat → Nat) (p : Chord) : Chord := (f p.1, f p.2)

/-- Crossings are counted over pairs, so a change of the ends that keeps each of them keeps their
number. -/
theorem crossings_map {f : Nat → Nat} {chords : List Chord}
    (hf : ∀ p ∈ chords, ∀ q ∈ chords, (p.map f).crosses (q.map f) = p.crosses q) :
    crossings (chords.map (map f)) = crossings chords := by
  induction chords with
  | nil => rfl
  | cons p rest ih =>
      have hrest : crossings (rest.map (map f)) = crossings rest :=
        ih fun q hq r hr => hf q (List.mem_cons_of_mem p hq) r (List.mem_cons_of_mem p hr)
      rw [List.map_cons, crossings, crossings, hrest, List.countP_map]
      congr 1
      refine List.countP_congr fun q hq => ?_
      rw [Function.comp_apply, hf p List.mem_cons_self q (List.mem_cons_of_mem p hq)]

/-- Fewer chords cross no more often. -/
theorem crossings_sublist {chords chords' : List Chord} (h : chords.Sublist chords') :
    crossings chords ≤ crossings chords' := by
  induction h with
  | slnil => exact Nat.le_refl 0
  | cons p _ ih => exact Nat.le_trans ih (Nat.le_add_left _ _)
  | cons_cons p hrest ih => exact Nat.add_le_add hrest.countP_le ih

theorem crosses_self (p : Chord) : p.crosses p = false := by simp [crosses, touches]

/-- A chord that is gone has taken its crossings with it. -/
theorem crossings_eq_erase_add {chords : List Chord} {p : Chord} (hp : p ∈ chords) :
    crossings chords = crossings (chords.erase p) + chords.countP (crosses p) := by
  induction chords with
  | nil => cases hp
  | cons q rest ih =>
      rw [crossings, List.countP_cons]
      by_cases hqp : q = p
      · rw [hqp, List.erase_cons_head, crosses_self, if_neg Bool.false_ne_true, Nat.add_zero,
          Nat.add_comm]
      · have hrest : p ∈ rest := (List.mem_cons.mp hp).resolve_left (Ne.symm hqp)
        have hcount := (List.perm_cons_erase hrest).countP_eq (crosses q)
        rw [List.countP_cons, crosses_comm] at hcount
        rw [List.erase_cons_tail (by simpa using hqp), crossings,
          ih hrest, hcount]
        omega

/-- Without one of two chords that cross there are fewer crossings. -/
theorem crossings_filter_lt {chords : List Chord} {keep : Chord → Bool} {p q : Chord}
    (hp : p ∈ chords) (hq : q ∈ chords) (hcross : p.crosses q = true) (hkeep : keep p = false) :
    crossings (chords.filter keep) < crossings chords := by
  have hnot : p ∉ chords.filter keep := fun hmem => by
    rw [List.mem_filter, hkeep] at hmem
    exact Bool.false_ne_true hmem.2
  have hsub : (chords.filter keep).Sublist (chords.erase p) :=
    List.erase_of_not_mem hnot ▸ List.filter_sublist.erase p
  rw [crossings_eq_erase_add hp]
  exact Nat.lt_of_le_of_lt (crossings_sublist hsub)
    (Nat.lt_add_of_pos_right (List.countP_pos_iff.mpr ⟨q, hq, hcross⟩))

theorem between_iff {p : Chord} {i : Nat} :
    p.between i = true ↔ p.1 < i ∧ i < p.2 ∨ p.2 < i ∧ i < p.1 := by
  simp only [between, Bool.and_eq_true, decide_eq_true_eq]
  omega

/-- Just one end is the first member. -/
def startsFirst (p : Chord) : Bool := (p.1 == 0) != (p.2 == 0)

/-- Mirroring keeps everything on its side of a chord, unless the chord starts at the first member.
Then the sides change places. -/
theorem between_mirror {n i : Nat} {p : Chord} (hp : p.1 < n ∧ p.2 < n) (hi : i < n)
    (h1 : i ≠ p.1) (h2 : i ≠ p.2) :
    (p.map (CyclicOrder.mirror n)).between (CyclicOrder.mirror n i) =
      (p.between i != p.startsFirst) := by
  obtain ⟨a, b⟩ := p
  -- `omega` knows no exclusive or, so the Booleans are put as equivalences
  have differ : ∀ x y z w : Bool, x = (y != (z != w)) ↔
      (x = true ↔ ¬(y = true ↔ ¬(z = true ↔ w = true))) := by decide
  rw [startsFirst, differ, between_iff, between_iff]
  simp only [map, CyclicOrder.mirror, beq_iff_eq] at *
  by_cases ha : a = 0
  · by_cases hb : b = 0
    · simp only [ha, hb, if_true, iff_self, not_true_eq_false, iff_false]
      split <;> omega
    · simp only [ha, hb, if_true, if_false, iff_false, not_true_eq_false, not_false_eq_true,
        iff_true]
      split <;> omega
  · by_cases hb : b = 0
    · simp only [ha, hb, if_true, if_false, iff_true, not_false_eq_true]
      split <;> omega
    · simp only [ha, hb, if_false, iff_self, not_true_eq_false, iff_false]
      split <;> omega

theorem touches_iff {p q : Chord} :
    p.touches q = true ↔ p.1 = q.1 ∨ p.1 = q.2 ∨ p.2 = q.1 ∨ p.2 = q.2 := by
  simp only [touches, Bool.or_eq_true, beq_iff_eq, or_assoc]

/-- Chords cross where their ends take turns. -/
theorem crosses_iff {p q : Chord} : p.crosses q = true ↔
    (min p.1 p.2 < min q.1 q.2 ∧ min q.1 q.2 < max p.1 p.2 ∧ max p.1 p.2 < max q.1 q.2) ∨
      (min q.1 q.2 < min p.1 p.2 ∧ min p.1 p.2 < max q.1 q.2 ∧ max q.1 q.2 < max p.1 p.2) := by
  have differ : ∀ x y : Bool, (x != y) = true ↔ (x = true ↔ ¬y = true) := by decide
  rw [crosses, Bool.and_eq_true, Bool.not_eq_true', ← Bool.not_eq_true, touches_iff, differ,
    between_iff, between_iff]
  omega

/-- A change of the ends that tells different ends apart keeps what touches. -/
theorem touches_map {f : Nat → Nat} {p q : Chord} (h11 : f p.1 = f q.1 ↔ p.1 = q.1)
    (h12 : f p.1 = f q.2 ↔ p.1 = q.2) (h21 : f p.2 = f q.1 ↔ p.2 = q.1)
    (h22 : f p.2 = f q.2 ↔ p.2 = q.2) : (p.map f).touches (q.map f) = p.touches q := by
  rw [Bool.eq_iff_iff, touches_iff, touches_iff]
  exact or_congr h11 (or_congr h12 (or_congr h21 h22))

theorem mirror_inj {n i j : Nat} (hi : i < n) (hj : j < n) :
    CyclicOrder.mirror n i = CyclicOrder.mirror n j ↔ i = j := by
  simp only [CyclicOrder.mirror]
  split <;> split <;> omega

/-- Two chords cross in the mirror where they crossed before. -/
theorem crosses_mirror {n : Nat} {p q : Chord} (hp : p.1 < n ∧ p.2 < n)
    (hq : q.1 < n ∧ q.2 < n) :
    (p.map (CyclicOrder.mirror n)).crosses (q.map (CyclicOrder.mirror n)) = p.crosses q := by
  rw [crosses, crosses, touches_map (mirror_inj hp.1 hq.1) (mirror_inj hp.1 hq.2)
    (mirror_inj hp.2 hq.1) (mirror_inj hp.2 hq.2)]
  cases htouch : p.touches q with
  | true => rfl
  | false =>
      have hends : ¬(p.1 = q.1 ∨ p.1 = q.2 ∨ p.2 = q.1 ∨ p.2 = q.2) := fun h => by
        rw [touches_iff.mpr h] at htouch
        cases htouch
      -- if the sides change places, they do so for both ends of the other chord
      have hflip : ∀ x y z : Bool, ((x != z) != (y != z)) = (x != y) := by decide
      change (!false && ((p.map _).between (CyclicOrder.mirror n q.1) !=
        (p.map _).between (CyclicOrder.mirror n q.2))) = _
      rw [between_mirror hp hq.1 (by omega) (by omega),
        between_mirror hp hq.2 (by omega) (by omega), hflip]

theorem closeUp_inj {i j k : Nat} (hj : j ≠ i) (hk : k ≠ i) :
    CyclicOrder.closeUp i j = CyclicOrder.closeUp i k ↔ j = k := by
  simp only [CyclicOrder.closeUp]
  split <;> split <;> omega

theorem closeUp_lt {i j k : Nat} (hj : j ≠ i) (hk : k ≠ i) :
    CyclicOrder.closeUp i j < CyclicOrder.closeUp i k ↔ j < k := by
  simp only [CyclicOrder.closeUp]
  split <;> split <;> omega

theorem between_closeUp {i j : Nat} {p : Chord} (hp : p.1 ≠ i ∧ p.2 ≠ i) (hj : j ≠ i) :
    (p.map (CyclicOrder.closeUp i)).between (CyclicOrder.closeUp i j) = p.between j := by
  rw [Bool.eq_iff_iff, between_iff, between_iff]
  exact or_congr (and_congr (closeUp_lt hp.1 hj) (closeUp_lt hj hp.2))
    (and_congr (closeUp_lt hp.2 hj) (closeUp_lt hj hp.1))

/-- Chords that do not end at a member cross as before once it is gone. -/
theorem crosses_closeUp {i : Nat} {p q : Chord} (hp : p.1 ≠ i ∧ p.2 ≠ i)
    (hq : q.1 ≠ i ∧ q.2 ≠ i) :
    (p.map (CyclicOrder.closeUp i)).crosses (q.map (CyclicOrder.closeUp i)) = p.crosses q := by
  rw [crosses, crosses, touches_map (closeUp_inj hp.1 hq.1) (closeUp_inj hp.1 hq.2)
    (closeUp_inj hp.2 hq.1) (closeUp_inj hp.2 hq.2)]
  congr 1
  exact congrArg₂ _ (between_closeUp hp hq.1) (between_closeUp hp hq.2)

end Chord

end RingLayout
