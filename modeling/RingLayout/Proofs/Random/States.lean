import RingLayout.Proofs.Random
import RingLayout.Proofs.Scalar.Fractions

/-! # The states of a generator

A shift that is added bit by bit can be undone, and so can the multiplication by an odd word. So no
two states have the same successor or the same word, and only the zero state has the zero word.
How many words a request takes does not depend on the state: a whole sequence of requests is so many
transitions.
-/

namespace RingLayout.Random

/-! ## Transitions -/

/-- Words that a shift is added to bit by bit stay apart, provided that it takes no word but 0 to
itself. -/
theorem injective_xor {shift : UInt64 → UInt64}
    (hxor : ∀ x y, shift (x ^^^ y) = shift x ^^^ shift y) (hfixed : ∀ x, shift x = x → x = 0) :
    Function.Injective fun x => x ^^^ shift x := by
  intro x y h
  refine UInt64.xor_eq_zero_iff.mp (hfixed _ ?_)
  have hzero : (x ^^^ shift x) ^^^ (y ^^^ shift y) = 0 := UInt64.xor_eq_zero_iff.mpr h
  refine (UInt64.xor_eq_zero_iff.mp ?_).symm
  rw [hxor, ← hzero]
  ac_rfl

theorem eq_zero_of_shiftRight {x k : UInt64} (hk : 0 < k.toNat % 64) (h : x >>> k = x) : x = 0 := by
  have hfixed : x.toNat / 2 ^ (k.toNat % 64) = x.toNat := by
    rw [← Nat.shiftRight_eq_div_pow, ← UInt64.toNat_shiftRight, h]
  refine UInt64.toNat_inj.mp (Nat.eq_zero_of_not_pos fun hpos => ?_)
  exact (Nat.div_lt_self hpos (Nat.one_lt_two_pow hk.ne')).ne hfixed

theorem eq_zero_of_shiftLeft {x k : UInt64} (hk : 0 < k.toNat % 64) (h : x <<< k = x) : x = 0 := by
  have hfixed : x.toNat * 2 ^ (k.toNat % 64) % 2 ^ 64 = x.toNat := by
    rw [← Nat.shiftLeft_eq, ← UInt64.toNat_shiftLeft, h]
  -- the word is a multiple of 2 ^ 64, since the other factor is odd
  have hdvd : 2 ^ 64 ∣ x.toNat * (2 ^ (k.toNat % 64) - 1) := by
    rw [Nat.mul_sub_one]
    refine (Nat.modEq_iff_dvd' (Nat.le_mul_of_pos_right _ (Nat.two_pow_pos _))).mp ?_
    exact (Nat.mod_eq_of_lt x.toNat_lt).trans hfixed.symm
  have hodd : Odd (2 ^ (k.toNat % 64) - 1) :=
    Nat.Even.sub_odd Nat.one_le_two_pow (even_two.pow_of_ne_zero hk.ne') odd_one
  have hcoprime : Nat.Coprime (2 ^ 64) (2 ^ (k.toNat % 64) - 1) :=
    (Nat.coprime_two_left.mpr hodd).pow_left 64
  exact UInt64.toNat_inj.mp
    (Nat.eq_zero_of_dvd_of_lt (hcoprime.dvd_of_dvd_mul_right hdvd) x.toNat_lt)

theorem injective_xor_shiftRight {k : UInt64} (hk : 0 < k.toNat % 64) :
    Function.Injective fun x : UInt64 => x ^^^ (x >>> k) :=
  injective_xor (fun _ _ => UInt64.shiftRight_xor) fun _ => eq_zero_of_shiftRight hk

theorem injective_xor_shiftLeft {k : UInt64} (hk : 0 < k.toNat % 64) :
    Function.Injective fun x : UInt64 => x ^^^ (x <<< k) :=
  injective_xor (fun _ _ => UInt64.shiftLeft_xor) fun _ => eq_zero_of_shiftLeft hk

theorem bijective_advance : Function.Bijective advance := by
  have hinjective := (injective_xor_shiftRight (k := 27) (by decide)).comp
    ((injective_xor_shiftLeft (k := 25) (by decide)).comp
      (injective_xor_shiftRight (k := 12) (by decide)))
  exact Finite.injective_iff_bijective.mp hinjective

theorem advance_zero : advance 0 = 0 := rfl

/-- The scrambling of a state is undone by the inverse of the odd factor. -/
theorem bijective_word : Function.Bijective fun x => (next ⟨x⟩).1 := by
  refine Finite.injective_iff_bijective.mp fun x y h => bijective_advance.injective ?_
  have hscrambled : advance x * 0x2545F4914F6CDD1D = advance y * 0x2545F4914F6CDD1D := h
  have hinverse : (0x2545F4914F6CDD1D : UInt64) * 0x59071D96D81ECD35 = 1 := by decide
  calc advance x = advance x * 0x2545F4914F6CDD1D * 0x59071D96D81ECD35 := by
        rw [UInt64.mul_assoc, hinverse, UInt64.mul_one]
    _ = advance y * 0x2545F4914F6CDD1D * 0x59071D96D81ECD35 := by rw [hscrambled]
    _ = advance y := by rw [UInt64.mul_assoc, hinverse, UInt64.mul_one]

theorem word_ne_zero {r : Random} (hr : r.state ≠ 0) : r.next.1 ≠ 0 := by
  intro h
  have hzero : (next ⟨0⟩).1 = 0 := rfl
  exact hr (bijective_word.injective (h.trans hzero.symm))

theorem iterate_advance_ne_zero (n : Nat) {x : UInt64} (hx : x ≠ 0) : advance^[n] x ≠ 0 := by
  intro h
  have hzero : advance^[n] 0 = 0 := Function.iterate_fixed advance_zero n
  exact hx (bijective_advance.injective.iterate n (h.trans hzero.symm))

/-! ## Requests -/

/-- A request to a generator. -/
inductive Request where
  | word
  | unit
  | index (upper : Nat)
  | distinct (upper count : Nat)
deriving Repr, DecidableEq

namespace Request

/-- The number of words that a request takes: none for an index without a choice, so that the last
of all indices to be drawn comes for free. -/
def words : Request → Nat
  | word => 1
  | unit => 1
  | index upper => min 1 (upper - 1)
  | distinct upper count => min count (upper - 1)

/-- The generator after a request. -/
def answer (K : Type) [Scalar K] (r : Random) : Request → Random
  | word => r.next.2
  | unit => (nextUnit (K := K) r).2
  | index upper => (nextIndex K r upper).2
  | distinct upper count => (Random.distinct K r upper count).2

end Request

variable (K : Type) [Scalar K]

theorem state_nextIndex (r : Random) (upper : Nat) :
    (nextIndex K r upper).2.state = advance^[min 1 (upper - 1)] r.state := by
  unfold nextIndex
  split
  next hupper =>
    rw [Nat.sub_eq_zero_of_le hupper]
    rfl
  next hupper =>
    rw [Nat.min_eq_left (by omega)]
    rfl

theorem state_drawFrom (count : Nat) (l : List Nat) (r : Random) :
    (drawFrom K count l r).2.state = advance^[min count (l.length - 1)] r.state := by
  induction count generalizing l r with
  | zero => rw [Nat.zero_min]; rfl
  | succ count ih =>
      cases l with
      | nil => rfl
      | cons first rest =>
          have hindex := state_nextIndex K r (rest.length + 1)
          have hwords : min (count + 1) rest.length =
              min count (rest.length - 1) + min 1 rest.length := by omega
          rw [Nat.add_sub_cancel] at hindex
          rw [drawFrom]
          dsimp only
          rw [List.length_cons, Nat.add_sub_cancel, hwords, Function.iterate_add_apply, ← hindex]
          split
          · exact ih _ _
          · rw [ih, List.length_set]

/-- A request makes as many transitions as it takes words. -/
theorem state_answer (r : Random) (q : Request) :
    (q.answer K r).state = advance^[q.words] r.state := by
  cases q with
  | word => rfl
  | unit => rfl
  | index upper => exact state_nextIndex K r upper
  | distinct upper count =>
      have hdraws := state_drawFrom K count (List.range upper) r
      rwa [List.length_range] at hdraws

/-- The generator after a sequence of requests. -/
def after (requests : List Request) (r : Random) : Random :=
  requests.foldl (Request.answer K) r

theorem state_after (requests : List Request) (r : Random) :
    (after K requests r).state = advance^[(requests.map Request.words).sum] r.state := by
  induction requests generalizing r with
  | nil => rfl
  | cons q requests ih =>
      rw [List.map_cons, List.sum_cons, Nat.add_comm, Function.iterate_add_apply,
        ← state_answer K r q]
      exact ih _

theorem injective_after (requests : List Request) : Function.Injective (after K requests) := by
  intro r r' h
  have hstate := congrArg state h
  rw [state_after, state_after] at hstate
  have heq := bijective_advance.injective.iterate _ hstate
  cases r
  cases r'
  exact congrArg Random.mk heq

/-! ## Draws -/

theorem nextNumerator_lt (r : Random) : r.nextNumerator.1 < 2 ^ 53 := by
  have hlt := r.next.1.toNat_lt
  change (r.next.1 >>> 11).toNat < 2 ^ 53
  rw [UInt64.toNat_shiftRight, Nat.shiftRight_eq_div_pow]
  change r.next.1.toNat / 2 ^ 11 < 2 ^ 53
  omega

theorem nextUnit_double (r : Random) :
    (nextUnit r).1 = Float.ofNat r.nextNumerator.1 / Float.ofNat (2 ^ 53) := by
  have hdenominator : denominator = 2 ^ 53 := by decide
  calc (nextUnit r).1
      = (r.nextNumerator.1 : Float) / (denominator : Float) := rfl
    _ = Float.ofNat r.nextNumerator.1 / Float.ofNat (2 ^ 53) := by
        rw [hdenominator]
        exact congrArg₂ Float.div (Double.natCast_eq _) (Double.natCast_eq _)

/-- In double precision the fraction that is drawn is the one meant. -/
theorem value?_nextUnit (r : Random) :
    Double.value? (nextUnit r).1 = some (r.nextNumerator.1 / (2 : ℚ) ^ 53) :=
  (congrArg Double.value? (nextUnit_double r)).trans
    (Double.value?_ofNat_div (nextNumerator_lt r))

/-- What is drawn from a generator. -/
structure Draws (r : Random) : Prop where
  state_ne_zero : r.state ≠ 0
  word_ne_zero : r.next.1 ≠ 0
  unit_eq : ∃ k < 2 ^ 53, Double.value? (nextUnit r).1 = some ((k : ℕ) / (2 : ℚ) ^ 53)
  index_lt : ∀ upper, 1 ≤ upper → (nextIndex K r upper).1 < upper

/-- How generators go on, whatever is requested of them. -/
structure KeepsGoing : Prop where
  /-- A draw takes a state on by three shifts, each of them added bit by bit. -/
  state_next : ∀ r : Random, ∀ x y, x = r.state ^^^ (r.state >>> 12) → y = x ^^^ (x <<< 25) →
    r.next.2.state = y ^^^ (y >>> 27)
  /-- The word that is drawn is the new state, scrambled by an odd factor. -/
  word_next : ∀ r : Random, r.next.1 = r.next.2.state * 0x2545F4914F6CDD1D
  /-- A sequence of requests makes as many transitions as it takes words. -/
  state_after : ∀ requests r,
    (after K requests r).state = advance^[(requests.map Request.words).sum] r.state
  bijective_advance : Function.Bijective advance
  advance_zero : advance 0 = 0
  /-- The words of distinct states are distinct. -/
  bijective_word : Function.Bijective fun x => (next ⟨x⟩).1
  /-- Distinct generators never merge. -/
  injective_after : ∀ requests, Function.Injective (after K requests)
  draws : ∀ seed requests, Draws K (after K requests (ofSeed seed))

/-- In every number system generators go on from state to state without ever coming to zero. In
double precision their fractions are exact. -/
theorem keepsGoing : KeepsGoing K where
  state_next := by
    rintro r x y rfl rfl
    rfl
  word_next _ := rfl
  state_after := state_after K
  bijective_advance := bijective_advance
  advance_zero := advance_zero
  bijective_word := bijective_word
  injective_after := injective_after K
  draws seed requests := by
    have hstate : (after K requests (ofSeed seed)).state ≠ 0 := by
      rw [state_after]
      exact iterate_advance_ne_zero _ (ofSeed_ne_zero seed)
    exact ⟨hstate, word_ne_zero hstate, ⟨_, nextNumerator_lt _, value?_nextUnit _⟩,
      fun _ => nextIndex_lt _⟩

end RingLayout.Random
