import Mathlib.Algebra.BigOperators.Fin
import RingLayout.Proofs.Crossings
import RingLayout.Proofs.Scalar.Real

/-! # Drawn chords

Chords are compared by the numbers of their ends, but what is seen are segments between points.
Where points stand in strictly convex position, numbered counterclockwise, both come to the same:
segments cross in a point inside both just when the numbers of their ends take turns. So it does
not matter at which point the numbers start, nor in which direction they go around.
-/

namespace RingLayout

namespace Point

/-! ## Sides of a line -/

theorem orientation_swap (p q r : Point ℝ) : orientation q p r = -orientation p q r := by
  simp only [orientation]
  ring

theorem orientation_rotate (p q r : Point ℝ) : orientation q r p = orientation p q r := by
  simp only [orientation]
  ring

theorem orientation_self (p q : Point ℝ) : orientation p p q = 0 := by
  simp only [orientation]
  ring

/-- The last two points are on different sides of the line through the first two. -/
def Parts (p q r s : Point ℝ) : Prop :=
  0 < orientation p q r ∧ orientation p q s < 0 ∨ orientation p q r < 0 ∧ 0 < orientation p q s

theorem segmentsCross_iff (p q r s : Point ℝ) :
    segmentsCross p q r s = true ↔ Parts r s p q ∧ Parts p q r s := by
  have hzero : (0.0 : ℝ) = 0 := by norm_num
  simp only [segmentsCross, Parts, hzero, Bool.and_eq_true, Bool.or_eq_true, decide_eq_true_eq]

/-- Which points are on different sides does not depend on the direction of the line. -/
theorem parts_swap (p q r s : Point ℝ) : Parts q p r s ↔ Parts p q r s := by
  simp only [Parts, orientation_swap p q, Left.neg_pos_iff, Left.neg_neg_iff]
  exact or_comm

theorem not_parts_self (p r s : Point ℝ) : ¬Parts p p r s := by
  simp [Parts, orientation_self]

/-- Points in strictly convex position, numbered counterclockwise. -/
def Convex {n : Nat} (P : Fin n → Point ℝ) : Prop :=
  ∀ i j k, i < j → j < k → 0 < orientation (P i) (P j) (P k)

namespace Convex

variable {n : Nat} {P : Fin n → Point ℝ} {c d : Fin n}

/-- The points between two others are on the right of the line through them, and the rest of the
points on the left. -/
theorem orientation_cases (h : Convex P) (hcd : c < d) (i : Fin n) :
    (i < c ∨ d < i) ∧ 0 < orientation (P c) (P d) (P i) ∨
      (i = c ∨ i = d) ∧ orientation (P c) (P d) (P i) = 0 ∨
        (c < i ∧ i < d) ∧ orientation (P c) (P d) (P i) < 0 := by
  rcases lt_trichotomy i c with hic | rfl | hci
  · have hleft := h i c d hic hcd
    rw [← orientation_rotate] at hleft
    exact Or.inl ⟨Or.inl hic, hleft⟩
  · refine Or.inr (Or.inl ⟨Or.inl rfl, ?_⟩)
    rw [orientation_rotate, orientation_self]
  · rcases lt_trichotomy i d with hid | rfl | hdi
    · refine Or.inr (Or.inr ⟨⟨hci, hid⟩, ?_⟩)
      rw [orientation_rotate, orientation_swap, Left.neg_neg_iff]
      exact h c i d hci hid
    · refine Or.inr (Or.inl ⟨Or.inr rfl, ?_⟩)
      rw [← orientation_rotate, orientation_self]
    · exact Or.inl ⟨Or.inr hdi, h c d i hcd hdi⟩

theorem orientation_neg_iff (h : Convex P) (hcd : c < d) (i : Fin n) :
    orientation (P c) (P d) (P i) < 0 ↔ c < i ∧ i < d := by
  rcases h.orientation_cases hcd i with ⟨hi, hpos⟩ | ⟨hi, hzero⟩ | ⟨hi, hneg⟩
  · exact iff_of_false (lt_asymm hpos) fun hmid => by omega
  · exact iff_of_false hzero.not_lt fun hmid => by omega
  · exact iff_of_true hneg hi

theorem orientation_pos_iff (h : Convex P) (hcd : c < d) (i : Fin n) :
    0 < orientation (P c) (P d) (P i) ↔ i < c ∨ d < i := by
  rcases h.orientation_cases hcd i with ⟨hi, hpos⟩ | ⟨hi, hzero⟩ | ⟨hi, hneg⟩
  · exact iff_of_true hpos hi
  · exact iff_of_false hzero.not_gt fun hout => by omega
  · exact iff_of_false (lt_asymm hneg) fun hout => by omega

/-- A line through two of the points parts two others just when the chords cross. -/
theorem parts_iff_of_lt (h : Convex P) (hcd : c < d) (a b : Fin n) :
    Parts (P c) (P d) (P a) (P b) ↔ Chord.crosses (c, d) (a, b) = true := by
  simp only [Parts, h.orientation_neg_iff hcd, h.orientation_pos_iff hcd, Chord.crosses_iff,
    Fin.lt_def]
  rw [Fin.lt_def] at hcd
  omega

theorem parts_iff (h : Convex P) (a b c d : Fin n) :
    Parts (P c) (P d) (P a) (P b) ↔ Chord.crosses (c, d) (a, b) = true := by
  rcases lt_trichotomy c d with hcd | rfl | hdc
  · exact h.parts_iff_of_lt hcd a b
  · refine iff_of_false (not_parts_self _ _ _) fun hcross => ?_
    rw [Chord.crosses_iff] at hcross
    omega
  · rw [parts_swap, h.parts_iff_of_lt hdc, Chord.crosses_iff, Chord.crosses_iff,
      min_comm (c : Nat), max_comm (c : Nat)]

/-- The segments between points cross just when the chords between their numbers do. -/
theorem segmentsCross_eq (h : Convex P) (a b c d : Fin n) :
    segmentsCross (P a) (P b) (P c) (P d) = Chord.crosses (a, b) (c, d) := by
  rw [Bool.eq_iff_iff, segmentsCross_iff, h.parts_iff, h.parts_iff, Chord.crosses_comm, and_self]

end Convex

end Point

namespace Chord

/-! ## Pairs of chords -/

theorem countP_eq_sum {α : Type} (test : α → Bool) (l : List α) :
    l.countP test = ∑ i : Fin l.length, if test l[i] = true then 1 else 0 := by
  induction l with
  | nil => rfl
  | cons a l ih =>
      rw [List.countP_cons, ih, add_comm]
      exact (Fin.sum_univ_succ fun i : Fin (l.length + 1) =>
        if test ((a :: l).get i) = true then 1 else 0).symm

/-- Crossings are counted once for every two entries of a list of chords. -/
theorem crossings_eq_card {α : Type} (chord : α → Chord) (l : List α) :
    crossings (l.map chord) = (Finset.univ.filter fun i : Fin l.length × Fin l.length =>
      i.1 < i.2 ∧ (chord l[i.1]).crosses (chord l[i.2]) = true).card := by
  rw [Finset.card_filter, Fintype.sum_prod_type]
  induction l with
  | nil => rfl
  | cons a l ih =>
      let cross (i j : Fin (l.length + 1)) : Nat :=
        if i < j ∧ (chord ((a :: l).get i)).crosses (chord ((a :: l).get j)) = true then 1 else 0
      have hfirst : ∑ j, cross 0 j = (l.map chord).countP (chord a).crosses := by
        rw [Fin.sum_univ_succ, List.countP_map, countP_eq_sum]
        simp [cross]
      have hrest : ∀ i : Fin l.length, ∑ j, cross i.succ j = ∑ j : Fin l.length,
          if i < j ∧ (chord l[i]).crosses (chord l[j]) = true then 1 else 0 := by
        intro i
        rw [Fin.sum_univ_succ]
        simp [cross]
      calc crossings ((a :: l).map chord)
          = ∑ j, cross 0 j + ∑ i : Fin l.length, ∑ j, cross i.succ j := by
            rw [List.map_cons, crossings, ih, hfirst, Finset.sum_congr rfl fun i _ => hrest i]
        _ = ∑ i, ∑ j, cross i j := (Fin.sum_univ_succ fun i => ∑ j, cross i j).symm

/-! ## Turning and mirroring the numbers -/

theorem between_flip {n i : Nat} {p : Chord} (hp : p.1 < n ∧ p.2 < n) (hi : i < n) :
    (p.map fun j => n - 1 - j).between (n - 1 - i) = p.between i := by
  rw [Bool.eq_iff_iff, between_iff, between_iff]
  simp only [map]
  omega

/-- Numbered backwards, chords cross as before. -/
theorem crosses_flip {n : Nat} {p q : Chord} (hp : p.1 < n ∧ p.2 < n) (hq : q.1 < n ∧ q.2 < n) :
    (p.map fun j => n - 1 - j).crosses (q.map fun j => n - 1 - j) = p.crosses q := by
  rw [crosses, crosses, touches_map (by omega) (by omega) (by omega) (by omega)]
  congr 1
  exact congrArg₂ _ (between_flip hp hq.1) (between_flip hp hq.2)

/-- Numbered from the last member on, chords cross as before, since that comes to the same as
numbering backwards and mirroring. -/
theorem crosses_advance {n : Nat} {p q : Chord} (hp : p.1 < n ∧ p.2 < n)
    (hq : q.1 < n ∧ q.2 < n) :
    (p.map fun i => (i + 1) % n).crosses (q.map fun i => (i + 1) % n) = p.crosses q := by
  have hstep : ∀ i < n, (i + 1) % n = CyclicOrder.mirror n (n - 1 - i) := by
    intro i hi
    rw [CyclicOrder.mirror]
    split
    next hlast => rw [show i + 1 = n by omega, Nat.mod_self]
    next hinner =>
      rw [Nat.mod_eq_of_lt (by omega)]
      omega
  have hmap : ∀ r : Chord, r.1 < n ∧ r.2 < n → (r.map fun i => (i + 1) % n) =
      (r.map fun i => n - 1 - i).map (CyclicOrder.mirror n) := fun r hr =>
    congrArg₂ Prod.mk (hstep r.1 hr.1) (hstep r.2 hr.2)
  rw [hmap p hp, hmap q hq, crosses_mirror, crosses_flip hp hq]
  all_goals
    simp only [map]
    omega

/-- Chords cross wherever the numbers start. -/
theorem crosses_turn {n : Nat} {p q : Chord} (hp : p.1 < n ∧ p.2 < n) (hq : q.1 < n ∧ q.2 < n)
    (k : Nat) : (p.map fun i => (i + k) % n).crosses (q.map fun i => (i + k) % n) =
      p.crosses q := by
  induction k with
  | zero =>
      have hmap : ∀ r : Chord, r.1 < n ∧ r.2 < n → (r.map fun i => (i + 0) % n) = r := fun r hr =>
        congrArg₂ Prod.mk (Nat.mod_eq_of_lt hr.1) (Nat.mod_eq_of_lt hr.2)
      rw [hmap p hp, hmap q hq]
  | succ k ih =>
      have hmap : ∀ r : Chord, (r.map fun i => (i + (k + 1)) % n) =
          (r.map fun i => (i + k) % n).map fun i => (i + 1) % n := by
        intro r
        simp only [map, Nat.mod_add_mod, Nat.add_assoc]
      have hlt : ∀ i, (i + k) % n < n := fun i => Nat.mod_lt _ (by omega)
      rw [hmap p, hmap q, crosses_advance ⟨hlt _, hlt _⟩ ⟨hlt _, hlt _⟩, ih]

/-- So they do if the numbers go back from there. -/
theorem crosses_turnBack {n : Nat} {p q : Chord} (hp : p.1 < n ∧ p.2 < n)
    (hq : q.1 < n ∧ q.2 < n) (k : Nat) :
    (p.map fun i => (n - i + k) % n).crosses (q.map fun i => (n - i + k) % n) = p.crosses q := by
  have hback : ∀ i, (n - i + k) % n = (CyclicOrder.mirror n i + k) % n := by
    intro i
    rw [CyclicOrder.mirror]
    split
    next hzero => rw [hzero, Nat.sub_zero, Nat.add_mod_left, Nat.zero_add]
    next => rfl
  have hmirror : ∀ i < n, CyclicOrder.mirror n i < n := by
    intro i hi
    rw [CyclicOrder.mirror]
    split <;> omega
  simp only [hback]
  have hturn := crosses_turn (p := p.map (CyclicOrder.mirror n))
    (q := q.map (CyclicOrder.mirror n)) ⟨hmirror _ hp.1, hmirror _ hp.2⟩
    ⟨hmirror _ hq.1, hmirror _ hq.2⟩ k
  exact hturn.trans (crosses_mirror hp hq)

end Chord

namespace Point

/-! ## Segments between points -/

/-- The numbers of two points. -/
def numbers {n : Nat} (p : Fin n × Fin n) : Chord := (p.1, p.2)

theorem numbers_lt {n : Nat} (p : Fin n × Fin n) : (numbers p).1 < n ∧ (numbers p).2 < n :=
  ⟨p.1.isLt, p.2.isLt⟩

/-- Whether the segments between two pairs of points cross in a point inside both. -/
noncomputable def meets {n : Nat} (P : Fin n → Point ℝ) (p q : Fin n × Fin n) : Bool :=
  segmentsCross (P p.1) (P p.2) (P q.1) (P q.2)

/-- What the numbers of points tell about the segments between them. -/
structure Depicted {n : Nat} (P : Fin n → Point ℝ) : Prop where
  meets_eq : ∀ p q, meets P p q = (numbers p).crosses (numbers q)
  /-- Whoever counts chords that cross counts the pairs of segments that do. -/
  crossings_eq : ∀ chords : List (Fin n × Fin n), Chord.crossings (chords.map numbers) =
    (Finset.univ.filter fun i : Fin chords.length × Fin chords.length =>
      i.1 < i.2 ∧ meets P chords[i.1] chords[i.2] = true).card
  /-- The numbers may start at any of the points. -/
  crossings_turned : ∀ (chords : List (Fin n × Fin n)) k,
    Chord.crossings (chords.map fun p => (numbers p).map fun i => (i + k) % n) =
      Chord.crossings (chords.map numbers)
  /-- They may go around in the other direction too. -/
  crossings_mirrored : ∀ (chords : List (Fin n × Fin n)) k,
    Chord.crossings (chords.map fun p => (numbers p).map fun i => (n - i + k) % n) =
      Chord.crossings (chords.map numbers)

theorem crossings_map_numbers {n : Nat} (chords : List (Fin n × Fin n)) {f : Nat → Nat}
    (hf : ∀ p q : Chord, p.1 < n ∧ p.2 < n → q.1 < n ∧ q.2 < n →
      (p.map f).crosses (q.map f) = p.crosses q) :
    Chord.crossings (chords.map fun p => (numbers p).map f) =
      Chord.crossings (chords.map numbers) := by
  have hmap : chords.map (fun p => (numbers p).map f) = (chords.map numbers).map (Chord.map f) := by
    rw [List.map_map]
    rfl
  rw [hmap]
  refine Chord.crossings_map fun p hp q hq => ?_
  obtain ⟨p, -, rfl⟩ := List.mem_map.mp hp
  obtain ⟨q, -, rfl⟩ := List.mem_map.mp hq
  exact hf _ _ (numbers_lt p) (numbers_lt q)

/-- Chords between points in strictly convex position cross as the segments that are drawn for
them do, whichever point is the first and whichever way the numbers go around. -/
theorem Convex.depicted {n : Nat} {P : Fin n → Point ℝ} (h : Convex P) : Depicted P := by
  have hmeets : ∀ p q, meets P p q = (numbers p).crosses (numbers q) := fun p q =>
    h.segmentsCross_eq p.1 p.2 q.1 q.2
  constructor
  case meets_eq => exact hmeets
  case crossings_eq =>
    intro chords
    simp only [hmeets]
    exact Chord.crossings_eq_card numbers chords
  case crossings_turned =>
    intro chords k
    exact crossings_map_numbers chords fun p q hp hq => Chord.crosses_turn hp hq k
  case crossings_mirrored =>
    intro chords k
    exact crossings_map_numbers chords fun p q hp hq => Chord.crosses_turnBack hp hq k

/-- The corners of a square. -/
noncomputable def square : Fin 4 → Point ℝ := ![⟨0, 0⟩, ⟨1, 0⟩, ⟨1, 1⟩, ⟨0, 1⟩]

/-- The diagonals of a square cross, and opposite sides do not. -/
theorem depicted_square : Convex square ∧ Depicted square ∧
    meets square (0, 2) (1, 3) = true ∧ meets square (0, 1) (2, 3) = false := by
  have hconvex : Convex square := by
    have hturns : ∀ i j k : Fin 4, i < j → j < k →
        (i, j, k) ∈ [(0, 1, 2), (0, 1, 3), (0, 2, 3), (1, 2, 3)] := by decide
    intro i j k hij hjk
    have hmem := hturns i j k hij hjk
    simp only [List.mem_cons, List.not_mem_nil, or_false, Prod.mk.injEq] at hmem
    rcases hmem with ⟨rfl, rfl, rfl⟩ | ⟨rfl, rfl, rfl⟩ | ⟨rfl, rfl, rfl⟩ | ⟨rfl, rfl, rfl⟩ <;>
      simp [orientation, square]
  refine ⟨hconvex, hconvex.depicted, ?_, ?_⟩
  · rw [hconvex.depicted.meets_eq]
    decide
  · rw [hconvex.depicted.meets_eq]
    decide

end Point

end RingLayout
