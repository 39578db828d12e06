/-! # Chords of a ring

The members of a ring are numbered around it. A chord joins two members and is given by their
numbers, so whether two chords cross is a question about four numbers.
-/

namespace RingLayout

/-- A chord of a ring, by the order indices of its two ends. -/
abbrev Chord := Nat × Nat

namespace Chord

@[inline] def between (p : Chord) (i : Nat) : Bool :=
  decide (min p.1 p.2 < i) && decide (i < max p.1 p.2)

@[inline] def touches (p q : Chord) : Bool :=
  p.1 == q.1 || p.1 == q.2 || p.2 == q.1 || p.2 == q.2

/-- Two chords cross when they have four ends and one end of the second lies between the ends of
the first while the other does not. -/
def crosses (p q : Chord) : Bool :=
  !p.touches q && (p.between q.1 != p.between q.2)

/-- Crossing is symmetric, although the test looks at the ends of one chord only. -/
theorem crosses_comm (p q : Chord) : p.crosses q = q.crosses p := by
  have differ : ∀ x y : Bool, (x != y) = true ↔ (x = true ↔ ¬y = true) := by decide
  rw [Bool.eq_iff_iff]
  simp only [crosses, touches, between, differ, Bool.and_eq_true, Bool.not_eq_true',
    Bool.or_eq_false_iff, beq_eq_false_iff_ne, decide_eq_true_eq]
  omega

/-- The number of crossing pairs in a list of chords. -/
def crossings : List Chord → Nat
  | [] => 0
  | p :: ps => ps.countP (crosses p) + crossings ps

end Chord

end RingLayout
