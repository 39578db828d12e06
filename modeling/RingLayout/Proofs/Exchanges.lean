import RingLayout.Proofs.Skeleton.Motion

/-! # Exchanged pairs rest

A round is a sequence of exchanges that are kept or taken back, so what each of them keeps, a round
keeps. Rounds share a memory, and no round exchanges a pair that the memory holds. After every
fifth round the memory is empty; else it holds what the last round exchanged that exchanged any
pair since. This is so for all rounds, whatever becomes of the drawing between them.
-/

namespace RingLayout

namespace ExchangeMemory

/-- The last round up to some round after which everything was forgotten. -/
def lastClearance (k : Nat) : Nat := k - k % clearance

theorem lastClearance_le (k : Nat) : lastClearance k ≤ k := Nat.sub_le ..

theorem lastClearance_of_dvd {k : Nat} (h : clearance ∣ k) : lastClearance k = k := by
  rw [lastClearance, Nat.mod_eq_zero_of_dvd h, Nat.sub_zero]

theorem lastClearance_succ {k : Nat} (h : ¬clearance ∣ k + 1) :
    lastClearance (k + 1) = lastClearance k := by
  rw [Nat.dvd_iff_mod_eq_zero] at h
  simp only [lastClearance, clearance] at h ⊢
  omega

/-- The last clearance is before rounds that nothing was forgotten after. -/
theorem lastClearance_lt {j k : Nat} (h : ∀ i, j ≤ i → i ≤ k → ¬clearance ∣ i) :
    lastClearance k < j := by
  refine Nat.lt_of_not_le fun hlast => ?_
  exact h (lastClearance k) hlast (lastClearance_le k) (Nat.dvd_sub_mod k)

end ExchangeMemory

namespace Drawing

open ExchangeMemory

variable {K : Type} [Scalar K] {held : List (Nat × Nat)} {d d' d'' : Drawing K}
  {pairs pairs' : List (Nat × Nat)}

/-! ## A round -/

/-- Neighbours change places one pair after the other, none of them held. An exchange that raises
the crossings of its ring is taken back; the pairs of the others are listed. -/
inductive Exchanges (held : List (Nat × Nat)) :
    Drawing K → List (Nat × Nat) → Drawing K → Prop
  | done (d : Drawing K) : Exchanges held d [] d
  | exchange {d d' : Drawing K} {pairs : List (Nat × Nat)} {c i u v : Nat}
      (hu : (d.ring c).order[i]? = some u)
      (hv : (d.ring c).order[CyclicOrder.next (d.ring c).order i]? = some v)
      (hheld : pair u v ∉ held)
      (hcrossings : (d.swapWithNext c i).crossingCount c ≤ d.crossingCount c)
      (rest : Exchanges held (d.swapWithNext c i) pairs d') :
      Exchanges held d (pair u v :: pairs) d'
  | takeBack {d d' : Drawing K} {pairs : List (Nat × Nat)} {c i u v : Nat}
      (hu : (d.ring c).order[i]? = some u)
      (hv : (d.ring c).order[CyclicOrder.next (d.ring c).order i]? = some v)
      (hheld : pair u v ∉ held)
      (hcrossings : d.crossingCount c < (d.swapWithNext c i).crossingCount c)
      (rest : Exchanges held ((d.swapWithNext c i).swapWithNext c i) pairs d') :
      Exchanges held d pairs d'

namespace Exchanges

theorem trans (h : Exchanges held d pairs d') (h' : Exchanges held d' pairs' d'') :
    Exchanges held d (pairs ++ pairs') d'' := by
  induction h with
  | done => exact h'
  | exchange hu hv hheld hcrossings _ ih => exact .exchange hu hv hheld hcrossings (ih h')
  | takeBack hu hv hheld hcrossings _ ih => exact .takeBack hu hv hheld hcrossings (ih h')

/-- What is held stays in place. -/
theorem notMem_held (h : Exchanges held d pairs d') : ∀ p ∈ pairs, p ∉ held := by
  induction h with
  | done => exact fun p hp => absurd hp List.not_mem_nil
  | exchange _ _ hheld _ _ ih => exact List.forall_mem_cons.mpr ⟨hheld, ih⟩
  | takeBack _ _ _ _ _ ih => exact ih

end Exchanges

section Round

variable (c : Nat) {ps : List (Candidate K)}

theorem exchanges_tryExchange (d : Drawing K) {p : Candidate K} (hp : pair p.u p.v ∉ held) :
    Exchanges held d (if (d.tryExchange c p).1 then [pair p.u p.v] else [])
      (d.tryExchange c p).2 := by
  rw [tryExchange]
  dsimp only
  split
  next hat =>
    split
    next hmore => exact .takeBack hat.1 hat.2 hp hmore (.done _)
    next hmore => exact .exchange hat.1 hat.2 hp (Nat.le_of_not_lt hmore) (.done _)
  next => exact .done d

theorem exchanges_exchangeFirst (hps : ∀ p ∈ ps, pair p.u p.v ∉ held) (d : Drawing K) :
    Exchanges held d (exchangeFirst c ps d).1.toList (exchangeFirst c ps d).2 := by
  induction ps generalizing d with
  | nil => exact .done d
  | cons p rest ih =>
      obtain ⟨hp, hrest⟩ := List.forall_mem_cons.mp hps
      have htry := exchanges_tryExchange c d hp
      rw [exchangeFirst]
      dsimp only
      split
      next hdone =>
        rw [if_pos hdone] at htry
        exact htry
      next hdone =>
        rw [if_neg hdone] at htry
        exact htry.trans (ih hrest _)

theorem exchanges_exchangeAll (touched : List Nat) (hps : ∀ p ∈ ps, pair p.u p.v ∉ held)
    (d : Drawing K) :
    Exchanges held d (exchangeAll c touched ps d).1 (exchangeAll c touched ps d).2 := by
  induction ps generalizing touched d with
  | nil => exact .done d
  | cons p rest ih =>
      obtain ⟨hp, hrest⟩ := List.forall_mem_cons.mp hps
      have htry := exchanges_tryExchange c d hp
      rw [exchangeAll]
      split
      · exact ih touched hrest d
      · dsimp only
        split
        next hdone =>
          rw [if_pos hdone] at htry
          exact htry.trans (ih _ hrest _)
        next hdone =>
          rw [if_neg hdone] at htry
          exact htry.trans (ih _ hrest _)

/-- Who is held is no candidate. -/
theorem notMem_held_of_mem_candidates (d : Drawing K) (m : ExchangeMemory) :
    ∀ p ∈ d.candidates m c, pair p.u p.v ∉ m.held := by
  intro p hp
  rw [candidates, List.mem_mergeSort] at hp
  obtain ⟨i, -, hcandidate⟩ := List.mem_filterMap.mp hp
  rw [candidate?] at hcandidate
  split at hcandidate
  · split at hcandidate
    · split at hcandidate
      · cases hcandidate
      · split at hcandidate
        next hfree =>
          cases hcandidate
          simp only [Bool.and_eq_true, Bool.not_eq_true', holds] at hfree
          exact fun hmem => Bool.noConfusion (hfree.2.symm.trans (List.contains_iff_mem.mpr hmem))
        next => cases hcandidate
    · cases hcandidate
  · cases hcandidate

theorem exchanges_exchangeOnRing (m : ExchangeMemory) (state : List (Nat × Nat) × Drawing K) :
    ∃ more, (exchangeOnRing m state c).1 = state.1 ++ more ∧
      Exchanges m.held state.2 more (exchangeOnRing m state c).2 := by
  obtain ⟨pairs, d⟩ := state
  have hall := d.notMem_held_of_mem_candidates c m
  have hout : ∀ p ∈ (d.candidates m c).filter (·.bothOut), pair p.u p.v ∉ m.held :=
    fun p hp => hall p (List.mem_of_mem_filter hp)
  have hfirst := exchanges_exchangeFirst c hout d
  unfold exchangeOnRing
  dsimp only
  split
  · exact ⟨[], (List.append_nil _).symm, .done d⟩
  · split
    next pair hpair =>
      rw [hpair] at hfirst
      exact ⟨[pair], rfl, hfirst⟩
    next hnone =>
      rw [hnone] at hfirst
      refine ⟨_, rfl, hfirst.trans (exchanges_exchangeAll c [] ?_ _)⟩
      exact fun p hp => hall p (List.mem_of_mem_filter hp)

/-- The exchanges of a ring come after those of the rings before it. -/
theorem exchanges_foldl (m : ExchangeMemory) (rings : List Nat)
    (state : List (Nat × Nat) × Drawing K) :
    ∃ more, (rings.foldl (exchangeOnRing m) state).1 = state.1 ++ more ∧
      Exchanges m.held state.2 more (rings.foldl (exchangeOnRing m) state).2 := by
  induction rings generalizing state with
  | nil => exact ⟨[], (List.append_nil _).symm, .done _⟩
  | cons c rest ih =>
      obtain ⟨first, hpairs, hfirst⟩ := exchanges_exchangeOnRing c m state
      obtain ⟨more, hmore, hrest⟩ := ih (exchangeOnRing m state c)
      refine ⟨first ++ more, ?_, hfirst.trans hrest⟩
      rw [List.foldl_cons, hmore, hpairs, List.append_assoc]

end Round

/-- The pairs that a round exchanges. -/
def exchangedPairs (d : Drawing K) (m : ExchangeMemory) : List (Nat × Nat) :=
  (d.ringNumbers.foldl (exchangeOnRing m) ([], d)).1

/-- A drawing whose members are not pulled any more. -/
def clearPulls (d : Drawing K) : Drawing K :=
  d.seated.foldl (fun d v => d.modifySeat v fun s => { s with pull := 0.0 }) d

/-- A round exchanges pairs that its memory does not hold. After that it only clears pulls. -/
theorem exists_exchanges (d : Drawing K) (m : ExchangeMemory) :
    ∃ d', Exchanges m.held d (d.exchangedPairs m) d' ∧
      (d.performExchanges m).2.1 = d'.clearPulls := by
  obtain ⟨more, hpairs, hexchanges⟩ := exchanges_foldl m d.ringNumbers ([], d)
  refine ⟨_, ?_, rfl⟩
  rw [exchangedPairs, hpairs]
  exact hexchanges

/-! ## Many rounds -/

/-- The memory after some rounds, which may start from any drawings. -/
def memoryAfter (rounds : Nat → Drawing K) : Nat → ExchangeMemory
  | 0 => .empty
  | k + 1 => ((rounds (k + 1)).performExchanges (memoryAfter rounds k)).2.2

/-- The pairs that the round of a number exchanges; the first round has the number 1. -/
def exchangedIn (rounds : Nat → Drawing K) : Nat → List (Nat × Nat)
  | 0 => []
  | k + 1 => (rounds (k + 1)).exchangedPairs (memoryAfter rounds k)

variable (rounds : Nat → Drawing K)

theorem memoryAfter_succ (k : Nat) : memoryAfter rounds (k + 1) =
    (memoryAfter rounds k).endRound (exchangedIn rounds (k + 1)) := rfl

theorem rounds_memoryAfter (k : Nat) : (memoryAfter rounds k).rounds = k := by
  induction k with
  | zero => rfl
  | succ k ih => exact congrArg Nat.succ ih

theorem held_memoryAfter_of_dvd {k : Nat} (h : clearance ∣ k) :
    (memoryAfter rounds k).held = [] := by
  cases k with
  | zero => rfl
  | succ k =>
      rw [memoryAfter_succ, endRound, rounds_memoryAfter]
      exact if_pos (Nat.mod_eq_zero_of_dvd h)

theorem held_memoryAfter_succ {k : Nat} (h : ¬clearance ∣ k + 1) :
    (memoryAfter rounds (k + 1)).held =
      if exchangedIn rounds (k + 1) = [] then (memoryAfter rounds k).held
      else exchangedIn rounds (k + 1) := by
  rw [memoryAfter_succ, endRound, rounds_memoryAfter]
  dsimp only
  rw [if_neg (mt Nat.dvd_of_mod_eq_zero h)]
  simp only [List.isEmpty_iff]

/-- A pair is among those of the last round, up to some round, that exchanged any since everything
was forgotten. -/
def LastExchanged (rounds : Nat → Drawing K) (k : Nat) (p : Nat × Nat) : Prop :=
  ∃ j, lastClearance k < j ∧ j ≤ k ∧ p ∈ exchangedIn rounds j ∧
    ∀ i, j < i → i ≤ k → exchangedIn rounds i = []

theorem not_lastExchanged_of_dvd {k : Nat} (h : clearance ∣ k) (p : Nat × Nat) :
    ¬LastExchanged rounds k p := by
  rintro ⟨j, hlast, hle, -⟩
  rw [lastClearance_of_dvd h] at hlast
  exact Nat.not_le_of_lt hlast hle

theorem lastExchanged_succ_of_quiet {k : Nat} (hclear : ¬clearance ∣ k + 1)
    (hquiet : exchangedIn rounds (k + 1) = []) (p : Nat × Nat) :
    LastExchanged rounds (k + 1) p ↔ LastExchanged rounds k p := by
  rw [LastExchanged, lastClearance_succ hclear]
  constructor
  · rintro ⟨j, hlast, hle, hp, hlater⟩
    rcases Nat.le_or_eq_of_le_succ hle with hle | rfl
    · exact ⟨j, hlast, hle, hp, fun i hji hik => hlater i hji (Nat.le_succ_of_le hik)⟩
    · rw [hquiet] at hp
      exact absurd hp List.not_mem_nil
  · rintro ⟨j, hlast, hle, hp, hlater⟩
    refine ⟨j, hlast, Nat.le_succ_of_le hle, hp, fun i hji hik => ?_⟩
    rcases Nat.le_or_eq_of_le_succ hik with hik | rfl
    · exact hlater i hji hik
    · exact hquiet

theorem lastExchanged_succ_of_ne_nil {k : Nat} (hclear : ¬clearance ∣ k + 1)
    (hsome : exchangedIn rounds (k + 1) ≠ []) (p : Nat × Nat) :
    LastExchanged rounds (k + 1) p ↔ p ∈ exchangedIn rounds (k + 1) := by
  rw [LastExchanged, lastClearance_succ hclear]
  constructor
  · rintro ⟨j, -, hle, hp, hlater⟩
    rcases Nat.le_or_eq_of_le_succ hle with hle | rfl
    · exact absurd (hlater (k + 1) (Nat.lt_succ_of_le hle) (Nat.le_refl _)) hsome
    · exact hp
  · intro hp
    have hlast := Nat.lt_succ_of_le (lastClearance_le k)
    exact ⟨k + 1, hlast, Nat.le_refl _, hp, fun i hi hik => absurd hik (Nat.not_le_of_lt hi)⟩

/-- The memory holds the pairs of the last round since it was cleared that exchanged any. -/
theorem mem_held_memoryAfter_iff (k : Nat) (p : Nat × Nat) :
    p ∈ (memoryAfter rounds k).held ↔ LastExchanged rounds k p := by
  have hforgotten : ∀ {k}, clearance ∣ k →
      (p ∈ (memoryAfter rounds k).held ↔ LastExchanged rounds k p) := by
    intro k hclear
    rw [held_memoryAfter_of_dvd rounds hclear]
    exact iff_of_false List.not_mem_nil (not_lastExchanged_of_dvd rounds hclear p)
  induction k with
  | zero => exact hforgotten (Nat.dvd_zero _)
  | succ k ih =>
      by_cases hclear : clearance ∣ k + 1
      · exact hforgotten hclear
      rw [held_memoryAfter_succ rounds hclear]
      split
      next hquiet => exact ih.trans (lastExchanged_succ_of_quiet rounds hclear hquiet p).symm
      next hsome => exact (lastExchanged_succ_of_ne_nil rounds hclear hsome p).symm

theorem notMem_held_memoryAfter (k : Nat) :
    ∀ p ∈ exchangedIn rounds (k + 1), p ∉ (memoryAfter rounds k).held := by
  obtain ⟨d', hexchanges, -⟩ := (rounds (k + 1)).exists_exchanges (memoryAfter rounds k)
  exact hexchanges.notMem_held

/-- What a round has exchanged is held until the next clearance if no round exchanges any pair. -/
theorem mem_held_of_quiet {j k : Nat} (hle : j ≤ k)
    (hclear : ∀ i, j ≤ i → i ≤ k → ¬clearance ∣ i)
    (hquiet : ∀ i, j < i → i ≤ k → exchangedIn rounds i = []) :
    ∀ p ∈ exchangedIn rounds j, p ∈ (memoryAfter rounds k).held :=
  fun p hp =>
    (mem_held_memoryAfter_iff rounds k p).mpr ⟨j, lastClearance_lt hclear, hle, hp, hquiet⟩

/-- What the rounds of exchanges that share a memory do, and what it holds after each of them. -/
structure Remembers (rounds : Nat → Drawing K) : Prop where
  /-- The pairs of a round are those that have changed places for good. -/
  exchanges : ∀ k, ∃ d',
    Exchanges (memoryAfter rounds k).held (rounds (k + 1)) (exchangedIn rounds (k + 1)) d' ∧
      ((rounds (k + 1)).performExchanges (memoryAfter rounds k)).2.1.skeleton = d'.skeleton
  held_eq_nil : ∀ k, clearance ∣ k → (memoryAfter rounds k).held = []
  /-- Otherwise the pairs of the last round since the last clearance that exchanged any are held. -/
  mem_held_iff : ∀ k p, p ∈ (memoryAfter rounds k).held ↔ LastExchanged rounds k p
  notMem_held : ∀ k, ∀ p ∈ exchangedIn rounds (k + 1), p ∉ (memoryAfter rounds k).held
  /-- A pair is not exchanged again in the next round unless everything is forgotten before. -/
  notMem_next : ∀ j, ¬clearance ∣ j → ∀ p ∈ exchangedIn rounds j, p ∉ exchangedIn rounds (j + 1)
  /-- Rounds that exchange no pair do not end that before the next clearance. -/
  held_of_quiet : ∀ j k, j ≤ k → (∀ i, j ≤ i → i ≤ k → ¬clearance ∣ i) →
    (∀ i, j < i → i ≤ k → exchangedIn rounds i = []) →
      ∀ p ∈ exchangedIn rounds j,
        p ∈ (memoryAfter rounds k).held ∧ p ∉ exchangedIn rounds (k + 1)

/-- Exchanged pairs rest, whatever becomes of the drawing between the rounds. -/
theorem remembers (rounds : Nat → Drawing K) : Remembers rounds := by
  constructor
  case exchanges =>
    intro k
    obtain ⟨d', hexchanges, heq⟩ := (rounds (k + 1)).exists_exchanges (memoryAfter rounds k)
    exact ⟨d', hexchanges, heq ▸ d'.skeleton_clearPulls _⟩
  case held_eq_nil => exact fun _ => held_memoryAfter_of_dvd rounds
  case mem_held_iff => exact mem_held_memoryAfter_iff rounds
  case notMem_held => exact notMem_held_memoryAfter rounds
  case notMem_next =>
    intro j hclear p hp hnext
    refine notMem_held_memoryAfter rounds j p hnext ?_
    refine mem_held_of_quiet rounds (Nat.le_refl j) (fun i hji hij => ?_) (fun i hji hij => ?_) p hp
    · exact Nat.le_antisymm hij hji ▸ hclear
    · exact absurd hij (Nat.not_le_of_lt hji)
  case held_of_quiet =>
    intro j k hle hclear hquiet p hp
    have hheld := mem_held_of_quiet rounds hle hclear hquiet p hp
    exact ⟨hheld, fun hagain => notMem_held_memoryAfter rounds k p hagain hheld⟩

end Drawing

end RingLayout
