import RingLayout.Proofs.Pulls
import RingLayout.Proofs.Scalar.Order

/-! # Candidates for an exchange

Two neighbours on a ring are a candidate if they may change places, are not held, and are both
pulled the same way, the one behind harder. In exact arithmetic the candidates of a ring are listed
by falling excess, and by growing index where the excess is the same.
-/

open scoped List

namespace RingLayout

/-- A sort that is stable leaves entries of the same rank in their order. -/
theorem pair_sublist_of_mergeSort {α : Type} {le : α → α → Bool}
    (trans : ∀ a b c, le a b = true → le b c = true → le a c = true)
    (total : ∀ a b, (le a b || le b a) = true) {l : List α} {a b : α} (hab : le a b = true)
    (hba : le b a = true) (h : [a, b] <+ l.mergeSort le) : [a, b] <+ l := by
  let rank (x : α) : Bool := le x a && le a x
  have hsame : (l.filter rank).Pairwise fun x y => le x y = true := by
    refine List.pairwise_of_forall_mem_list fun x hx y hy => ?_
    have hx' := Bool.and_eq_true_iff.mp (List.mem_filter.mp hx).2
    have hy' := Bool.and_eq_true_iff.mp (List.mem_filter.mp hy).2
    exact trans x a y hx'.1 hy'.2
  have hsub : l.filter rank <+ (l.mergeSort le).filter rank := by
    have hsorted := (List.sublist_mergeSort trans total hsame List.filter_sublist).filter rank
    rwa [List.filter_filter, funext fun x => Bool.and_self (rank x)] at hsorted
  have heq : l.filter rank = (l.mergeSort le).filter rank :=
    hsub.eq_of_length ((List.mergeSort_perm l le).filter rank).length_eq.symm
  have ha : le a a = true := trans a b a hab hba
  have hpair : [a, b].filter rank = [a, b] := by simp [rank, ha, hab, hba]
  have hfilter := h.filter rank
  rw [hpair, ← heq] at hfilter
  exact hfilter.trans List.filter_sublist

variable {K : Type} [Scalar K]

/-- Two pulls that lead the same way along a ring. -/
def SameSense (x y : K) : Prop := 0.0 < x ∧ 0.0 < y ∨ x < 0.0 ∧ y < 0.0

namespace Drawing

open ExchangeMemory

/-- A candidate whose members stand at its index and the next one. -/
structure Candidate.StandsIn (order : List Nat) (p : Candidate K) : Prop where
  behind : order[p.index]? = some p.u
  ahead : order[CyclicOrder.next order p.index]? = some p.v

/-- Two neighbours on a ring that want to change places and may. -/
@[mk_iff]
structure IsCandidate (d : Drawing K) (m : ExchangeMemory) (c : Nat) (p : Candidate K) : Prop
    extends p.StandsIn (d.ring c).order where
  swapsNext : ∃ s, (d.body p.u).seat? = some s ∧ s.swapsNext = true
  swapsPrevious : ∃ t, (d.body p.v).seat? = some t ∧ t.swapsPrevious = true
  notMem_held : pair p.u p.v ∉ m.held
  sameSense : SameSense (d.body p.u).pull (d.body p.v).pull
  pull_lt : (d.body p.v).pull < (d.body p.u).pull
  excess_eq : p.excess = (d.body p.u).pull - (d.body p.v).pull
  bothOut_eq : p.bothOut = (d.isOutNode p.u && d.isOutNode p.v)

variable {d : Drawing K} {m : ExchangeMemory} {c i : Nat} {p : Candidate K}

theorem holds_eq_false_iff {u v : Nat} : m.holds u v = false ↔ pair u v ∉ m.held := by
  rw [holds, ← Bool.not_eq_true, List.contains_iff_mem]

variable [OrderedScalar K]

theorem sameSense_iff {x y : K} : SameSense x y ↔ ¬x * y ≤ 0.0 := by
  rw [OrderedScalar.not_le, OrderedScalar.mul_pos_iff]
  rfl

theorem candidate?_eq_some_iff :
    d.candidate? m c i = some p ↔ p.index = i ∧ IsCandidate d m c p := by
  have hpull : ∀ {v : Nat} {s : Seat K}, (d.body v).seat? = some s → (d.body v).pull = s.pull := by
    intro v s hs
    rw [Body.pull, hs]
  constructor
  · intro h
    unfold candidate? at h
    dsimp only at h
    split at h
    next u v hu hv =>
      split at h
      next s t hs ht =>
        split at h
        next => cases h
        next hpulls =>
          obtain ⟨hsense, hlt⟩ := not_or.mp hpulls
          split at h
          next hfree =>
            simp only [Bool.and_eq_true, Bool.not_eq_true'] at hfree
            obtain rfl := Option.some.inj h
            refine ⟨rfl, ⟨hu, hv⟩, ⟨s, hs, hfree.1.1⟩, ⟨t, ht, hfree.1.2⟩,
              holds_eq_false_iff.mp hfree.2, ?_, ?_, ?_, rfl⟩
            · rw [hpull hs, hpull ht]
              exact sameSense_iff.mpr hsense
            · rw [hpull hs, hpull ht]
              exact OrderedScalar.not_le.mp hlt
            · rw [hpull hs, hpull ht]
          next => cases h
      next => cases h
    next => cases h
  · rintro ⟨rfl, h⟩
    obtain ⟨s, hs, hnext⟩ := h.swapsNext
    obtain ⟨t, ht, hprevious⟩ := h.swapsPrevious
    have hsense := sameSense_iff.mp h.sameSense
    have hlt := OrderedScalar.not_le.mpr h.pull_lt
    have hexcess := h.excess_eq
    rw [hpull hs, hpull ht] at hsense hlt hexcess
    unfold candidate?
    simp only [h.behind, h.ahead, hs, ht, hnext, hprevious, holds_eq_false_iff.mpr h.notMem_held,
      if_neg (not_or.mpr ⟨hsense, hlt⟩), ← hexcess, ← h.bothOut_eq]
    rfl

theorem mem_candidates_iff : p ∈ d.candidates m c ↔ IsCandidate d m c p := by
  rw [candidates, List.mem_mergeSort, List.mem_filterMap]
  constructor
  · rintro ⟨i, -, hi⟩
    exact (candidate?_eq_some_iff.mp hi).2
  · intro h
    obtain ⟨hlt, -⟩ := List.getElem?_eq_some_iff.mp h.behind
    exact ⟨p.index, List.mem_range.mpr hlt, candidate?_eq_some_iff.mpr ⟨rfl, h⟩⟩

/-- Candidates come by falling excess, and those with the same excess by growing index. -/
theorem pairwise_candidates (d : Drawing K) (m : ExchangeMemory) (c : Nat) :
    (d.candidates m c).Pairwise fun p q =>
      q.excess < p.excess ∨ q.excess = p.excess ∧ p.index < q.index := by
  have htrans : ∀ x y z : Candidate K, Scalar.sortLe y.excess x.excess = true →
      Scalar.sortLe z.excess y.excess = true → Scalar.sortLe z.excess x.excess = true := by
    simp only [OrderedScalar.sortLe_iff]
    exact fun x y z hxy hyz => OrderedScalar.le_trans _ _ _ hyz hxy
  have htotal : ∀ x y : Candidate K,
      (Scalar.sortLe y.excess x.excess || Scalar.sortLe x.excess y.excess) = true := by
    simp only [Bool.or_eq_true, OrderedScalar.sortLe_iff]
    exact fun x y => OrderedScalar.le_total _ _
  have hindex : ((List.range (d.ring c).order.length).filterMap (d.candidate? m c)).Pairwise
      fun p q => p.index < q.index := by
    refine List.pairwise_lt_range.filterMap _ fun i j hij p hp q hq => ?_
    obtain ⟨rfl, -⟩ := candidate?_eq_some_iff.mp hp
    obtain ⟨rfl, -⟩ := candidate?_eq_some_iff.mp hq
    exact hij
  rw [List.pairwise_iff_forall_sublist] at hindex ⊢
  intro p q hpq
  have hle := List.pairwise_iff_forall_sublist.mp (List.pairwise_mergeSort htrans htotal _) hpq
  rcases OrderedScalar.lt_or_eq_of_le ((OrderedScalar.sortLe_iff _ _).mp hle) with hlt | heq
  · exact Or.inl hlt
  · have hback : Scalar.sortLe p.excess q.excess = true := by
      rw [heq] at hle
      rwa [heq]
    exact Or.inr ⟨heq, hindex (pair_sublist_of_mergeSort htrans htotal hle hback hpq)⟩

end Drawing

end RingLayout
