import RingLayout.Scalar

/-! # Random numbers

A shift-register generator on nonzero 64-bit words. Its output is the scrambled new state, and the
upper 53 bits of the output make a fraction.
-/

namespace RingLayout

structure Random where
  state : UInt64
deriving Repr, DecidableEq

namespace Random

/-- The zero word would never leave itself, so seed 0 acts as seed 1. -/
def ofSeed (seed : UInt64) : Random := ⟨if seed == 0 then 1 else seed⟩

theorem ofSeed_ne_zero (seed : UInt64) : (ofSeed seed).state ≠ 0 := by
  unfold ofSeed
  by_cases h : seed = 0
  · subst h; decide
  · simp only [beq_iff_eq, h, if_false]; exact h

/-- The state transition: three shifts, each added bit by bit. -/
def advance (x : UInt64) : UInt64 :=
  let x := x ^^^ (x >>> 12)
  let x := x ^^^ (x <<< 25)
  x ^^^ (x >>> 27)

def next (r : Random) : UInt64 × Random :=
  let x := advance r.state
  (x * 0x2545F4914F6CDD1D, ⟨x⟩)

def denominator : Nat := 9007199254740992

/-- The numerator of the next fraction. -/
def nextNumerator (r : Random) : Nat × Random :=
  let (word, r) := r.next
  ((word >>> 11).toNat, r)

/-- The next fraction of `[0, 1)`. -/
@[specialize] def nextUnit {K : Type} [Scalar K] (r : Random) : K × Random :=
  let (numerator, r) := r.nextNumerator
  ((numerator : K) / (denominator : K), r)

/-- The next index below `upper`. Where there is no choice, no number is drawn. -/
@[specialize] def nextIndex (K : Type) [Scalar K] (r : Random) (upper : Nat) : Nat × Random :=
  if upper ≤ 1 then (0, r)
  else
    let (unit, r) := nextUnit (K := K) r
    (min (Scalar.floorNat (unit * (upper : K))) (upper - 1), r)

/-- Draws `count` entries of a list without replacement: the entry drawn goes to the front of
what is left, and the entry it displaces takes its place. -/
@[specialize] def drawFrom (K : Type) [Scalar K] : Nat → List Nat → Random → List Nat × Random
  | count + 1, first :: rest, r =>
    let (j, r) := nextIndex K r (rest.length + 1)
    let (drawn, left) :=
      match j with
      | 0 => (first, rest)
      | j + 1 => (rest.getD j first, rest.set j first)
    let (later, r) := drawFrom K count left r
    (drawn :: later, r)
  | _, _, r => ([], r)

/-- Draws distinct indices below `upper`: `count` of them, or all if there are fewer. -/
@[specialize] def distinct (K : Type) [Scalar K] (r : Random) (upper count : Nat) :
    List Nat × Random :=
  drawFrom K count (List.range upper) r

@[specialize] def units {K : Type} [Scalar K] : Nat → Random → List K × Random
  | 0, r => ([], r)
  | count + 1, r =>
    let (x, r) := nextUnit r
    let (xs, r) := units count r
    (x :: xs, r)

end Random

end RingLayout
