import RingLayout.Proofs.Exchanges.Candidates

/-! # The exchanges of a round on one ring

While candidates of a ring are exchanged, its order is the one that the round found, but for pairs
without a common member. So a candidate whose members have stayed in place is still at its index,
and what the round has collected at its start remains true of it.
-/

namespace RingLayout

open Drawing (Candidate)

namespace Drawing.Candidate

variable {K : Type}

def members (p : Candidate K) : List Nat := [p.u, p.v]

/-- The pair that is remembered when a candidate is exchanged. -/
def pair (p : Candidate K) : Nat × Nat := ExchangeMemory.pair p.u p.v

end Drawing.Candidate

namespace CyclicOrder

variable {K : Type} {order order' : List Nat} {done : List (Candidate K)} {p : Candidate K}

theorem next_ne {i : Nat} (hi : i < order.length) (hlong : 2 ≤ order.length) :
    next order i ≠ i := by
  rw [next, Nat.max_eq_left (by omega)]
  rcases Nat.lt_or_ge (i + 1) order.length with hlt | hge
  · rw [Nat.mod_eq_of_lt hlt]
    omega
  · rw [show i + 1 = order.length by omega, Nat.mod_self]
    omega

/-- The second order is the first one with some pairs of neighbours exchanged. No two of them have
a common member, and whoever is in none of them is in place. -/
structure Exchanged (order : List Nat) (done : List (Candidate K)) (order' : List Nat) :
    Prop where
  length_eq : order'.length = order.length
  standsIn : ∀ p ∈ done, p.StandsIn order
  disjoint : done.Pairwise fun p q => p.members.Disjoint q.members
  exchanged : ∀ p ∈ done, order'[p.index]? = some p.v ∧ order'[next order p.index]? = some p.u
  others : ∀ k, (∀ p ∈ done, k ≠ p.index ∧ k ≠ next order p.index) → order'[k]? = order[k]?

namespace Exchanged

theorem refl (order : List Nat) : Exchanged order ([] : List (Candidate K)) order where
  length_eq := rfl
  standsIn _ hp := absurd hp List.not_mem_nil
  disjoint := .nil
  exchanged _ hp := absurd hp List.not_mem_nil
  others _ _ := rfl

/-- Whoever is in none of the pairs stands where it stood. -/
theorem getElem?_of_notMem (h : Exchanged order done order') {k w : Nat}
    (hw : order[k]? = some w) (hout : ∀ q ∈ done, w ∉ q.members) : order'[k]? = some w := by
  rw [h.others k, hw]
  intro q hq
  obtain ⟨hu, hv⟩ := h.standsIn q hq
  constructor
  · rintro rfl
    rw [hw, Option.some.injEq] at hu
    exact hout q hq (hu ▸ List.mem_cons_self)
  · rintro rfl
    rw [hw, Option.some.injEq] at hv
    exact hout q hq (hv ▸ List.mem_cons_of_mem _ List.mem_cons_self)

theorem next_eq (h : Exchanged order done order') (i : Nat) : next order' i = next order i :=
  next_congr h.length_eq i

/-- A candidate that shares no member with the exchanged ones is still at its index. -/
theorem standsIn_of_disjoint (h : Exchanged order done order') (hp : p.StandsIn order)
    (hout : ∀ q ∈ done, q.members.Disjoint p.members) : p.StandsIn order' where
  behind := h.getElem?_of_notMem hp.behind fun q hq hmem => hout q hq hmem List.mem_cons_self
  ahead := by
    rw [h.next_eq]
    exact h.getElem?_of_notMem hp.ahead fun q hq hmem =>
      hout q hq hmem (List.mem_cons_of_mem _ List.mem_cons_self)

/-- One more pair is exchanged. -/
theorem concat (h : Exchanged order done order') (hlong : 2 ≤ order.length)
    (hp : p.StandsIn order) (hout : ∀ q ∈ done, q.members.Disjoint p.members) :
    Exchanged order (done ++ [p]) (exchange order' p.index (next order' p.index)) := by
  obtain ⟨hu, hv⟩ := h.standsIn_of_disjoint hp hout
  obtain ⟨hlt, -⟩ := List.getElem?_eq_some_iff.mp hp.behind
  have hne := next_ne hlt hlong
  have hget := getElem?_exchange hu hv
  rw [h.next_eq] at hget ⊢
  -- the slots of the pair are none of those exchanged before
  have hslot : ∀ {k w : Nat}, order[k]? = some w → w ∉ p.members →
      k ≠ p.index ∧ k ≠ next order p.index := by
    intro k w hw hmem
    constructor
    · rintro rfl
      exact hmem (Option.some.inj (hp.behind.symm.trans hw) ▸ List.mem_cons_self)
    · rintro rfl
      exact hmem (Option.some.inj (hp.ahead.symm.trans hw) ▸
        List.mem_cons_of_mem _ List.mem_cons_self)
  constructor
  case length_eq => exact (exchange_perm order' _ _).length_eq.trans h.length_eq
  case standsIn =>
    intro q hq
    rcases List.mem_append.mp hq with hq | hq
    · exact h.standsIn q hq
    · exact List.mem_singleton.mp hq ▸ hp
  case disjoint =>
    refine List.pairwise_append.mpr ⟨h.disjoint, List.pairwise_singleton _ p, fun q hq r hr => ?_⟩
    exact List.mem_singleton.mp hr ▸ hout q hq
  case exchanged =>
    intro q hq
    rcases List.mem_append.mp hq with hq | hq
    · obtain ⟨hqu, hqv⟩ := h.standsIn q hq
      obtain ⟨hback, hfront⟩ := h.exchanged q hq
      have huslot := hslot hqu fun hmem => hout q hq List.mem_cons_self hmem
      have hvslot := hslot hqv fun hmem =>
        hout q hq (List.mem_cons_of_mem _ List.mem_cons_self) hmem
      rw [hget, hget, if_neg huslot.2, if_neg huslot.1, if_neg hvslot.2, if_neg hvslot.1]
      exact ⟨hback, hfront⟩
    · rw [List.mem_singleton.mp hq, hget, hget, if_neg hne.symm, if_pos rfl, if_pos rfl]
      exact ⟨rfl, rfl⟩
  case others =>
    intro k hk
    obtain ⟨hback, hfront⟩ := hk p (List.mem_append_right _ List.mem_cons_self)
    rw [hget, if_neg hfront, if_neg hback]
    exact h.others k fun q hq => hk q (List.mem_append_left _ hq)

end Exchanged

end CyclicOrder

namespace Drawing

variable {K : Type} [Scalar K] {members : Nat → List Nat} {d e : Drawing K} {m : ExchangeMemory}
  {c i : Nat} {p : Candidate K} {done ps : List (Candidate K)}

/-! ## Exchanges that raise no crossings -/

/-- An exchange at an index would not raise the crossings of a ring. -/
def Harmless (d : Drawing K) (c i : Nat) : Prop :=
  (d.swapWithNext c i).crossingCount c ≤ d.crossingCount c

open Skeleton (chordsIn) in
/-- Whether an exchange is harmless is a matter of the order and the links of the ring. -/
theorem harmless_iff (hd : d.skeleton.Seated members) : Harmless d c i ↔
    Chord.crossings (chordsIn
        (CyclicOrder.exchange (d.ring c).order i (CyclicOrder.next (d.ring c).order i))
        ((d.ring c).innerLinks.map d.skeleton.link)) ≤
      Chord.crossings (chordsIn (d.ring c).order ((d.ring c).innerLinks.map d.skeleton.link)) := by
  have hbefore : d.crossingCount c = Chord.crossings
      (chordsIn (d.ring c).order ((d.ring c).innerLinks.map d.skeleton.link)) :=
    (d.crossingCount_eq c).trans (hd.crossings_eq c)
  have hafter := hd.crossings_reorder (CyclicOrder.exchange_perm (d.ring c).order i
    (CyclicOrder.next (d.ring c).order i)) c
  rw [if_pos rfl, ← skeleton_swapWithNext hd, ← crossingCount_eq] at hafter
  rw [Harmless, hafter, hbefore]
  rfl

theorem harmless_congr (hd : d.skeleton.Seated members) (he : e.skeleton.Seated members)
    (hring : e.skeleton.ring c = d.skeleton.ring c) (hlink : e.skeleton.link = d.skeleton.link) :
    Harmless e c i ↔ Harmless d c i := by
  have horder : (e.ring c).order = (d.ring c).order := congrArg RingShape.order hring
  have hinner : (e.ring c).innerLinks = (d.ring c).innerLinks := congrArg RingShape.innerLinks hring
  rw [harmless_iff hd, harmless_iff he, horder, hinner, hlink]

theorem harmless_congr_of_skeleton (hd : d.skeleton.Seated members)
    (hsame : e.skeleton = d.skeleton) : Harmless e c i ↔ Harmless d c i :=
  harmless_congr hd (hsame ▸ hd) (congrArg (fun s => s.ring c) hsame) (congrArg Skeleton.link hsame)

theorem links_swapWithNext (d : Drawing K) (c i : Nat) : (d.swapWithNext c i).links = d.links :=
  (keeps_swapWithNext steady_pull d c i).links_eq

/-! ## Exchanges one after the other -/

/-- A drawing with some candidates of one ring exchanged. The slots of the ring keep their
angles. -/
structure Swapped (members : Nat → List Nat) (c : Nat) (d e : Drawing K)
    (done : List (Candidate K)) : Prop where
  isLocal : Local c d e
  sound : e.skeleton.Sound members
  links_eq : e.links = d.links
  angles_eq : e.angles c = d.angles c
  order : CyclicOrder.Exchanged (d.ring c).order done (e.ring c).order

namespace Swapped

theorem refl (hd : d.skeleton.Sound members) (c : Nat) : Swapped members c d d [] :=
  ⟨.refl c d, hd, rfl, rfl, .refl _⟩

theorem takeBack (h : Swapped members c d e done) (i : Nat) :
    Swapped members c d ((e.swapWithNext c i).swapWithNext c i) done := by
  have hswap := sound_swapWithNext h.sound c i
  have hback := skeleton_swapWithNext_swapWithNext h.sound.seated c i
  constructor
  case isLocal =>
    exact (h.isLocal.trans (local_swapWithNext h.sound c i)).trans (local_swapWithNext hswap c i)
  case sound => exact sound_swapWithNext hswap c i
  case links_eq => rw [links_swapWithNext, links_swapWithNext, h.links_eq]
  case angles_eq => rw [angles_swapWithNext hswap, angles_swapWithNext h.sound, h.angles_eq]
  case order =>
    have horder : (((e.swapWithNext c i).swapWithNext c i).ring c).order = (e.ring c).order :=
      congrArg (fun s => (s.ring c).order) hback
    rw [horder]
    exact h.order

theorem exchange (h : Swapped members c d e done) (hlong : 3 ≤ (d.ring c).order.length)
    (hp : p.StandsIn (d.ring c).order) (hout : ∀ q ∈ done, q.members.Disjoint p.members) :
    Swapped members c d (e.swapWithNext c p.index) (done ++ [p]) := by
  constructor
  case isLocal => exact h.isLocal.trans (local_swapWithNext h.sound c p.index)
  case sound => exact sound_swapWithNext h.sound c p.index
  case links_eq => rw [links_swapWithNext, h.links_eq]
  case angles_eq => rw [angles_swapWithNext h.sound, h.angles_eq]
  case order =>
    rw [order_swapWithNext h.sound]
    exact h.order.concat (by omega) hp hout

end Swapped

theorem tryExchange_eq (hp : p.StandsIn (d.ring c).order) : d.tryExchange c p =
    if d.crossingCount c < (d.swapWithNext c p.index).crossingCount c then
      (false, (d.swapWithNext c p.index).swapWithNext c p.index)
    else (true, d.swapWithNext c p.index) := by
  unfold tryExchange
  exact if_pos ⟨hp.behind, hp.ahead⟩

/-- A candidate whose members have stayed in place is exchanged if that is harmless. -/
theorem tryExchange_cases (h : Swapped members c d e done)
    (hlong : 3 ≤ (d.ring c).order.length) (hp : p.StandsIn (d.ring c).order)
    (hout : ∀ q ∈ done, q.members.Disjoint p.members) :
    (¬Harmless e c p.index ∧ (e.tryExchange c p).1 = false ∧
      (e.tryExchange c p).2.skeleton = e.skeleton ∧
      Swapped members c d (e.tryExchange c p).2 done) ∨
    (Harmless e c p.index ∧ (e.tryExchange c p).1 = true ∧
      Swapped members c d (e.tryExchange c p).2 (done ++ [p])) := by
  rw [tryExchange_eq (h.order.standsIn_of_disjoint hp hout)]
  split
  next hmore =>
    exact Or.inl ⟨Nat.not_le_of_lt hmore, rfl,
      skeleton_swapWithNext_swapWithNext h.sound.seated c p.index, h.takeBack p.index⟩
  next hmore => exact Or.inr ⟨Nat.le_of_not_lt hmore, rfl, h.exchange hlong hp hout⟩

/-- Of listed candidates the first harmless one is exchanged. -/
theorem exchangeFirst_cases (hd : d.skeleton.Seated members)
    (hlong : 3 ≤ (d.ring c).order.length) (hps : ∀ p ∈ ps, p.StandsIn (d.ring c).order)
    (h : Swapped members c d e []) (hsame : e.skeleton = d.skeleton) :
    ((∀ p ∈ ps, ¬Harmless d c p.index) ∧ (exchangeFirst c ps e).1 = none ∧
      (exchangeFirst c ps e).2.skeleton = d.skeleton ∧
      Swapped members c d (exchangeFirst c ps e).2 []) ∨
    ∃ before p after, ps = before ++ p :: after ∧ (∀ q ∈ before, ¬Harmless d c q.index) ∧
      Harmless d c p.index ∧ (exchangeFirst c ps e).1 = some p.pair ∧
      Swapped members c d (exchangeFirst c ps e).2 [p] := by
  induction ps generalizing e with
  | nil => exact Or.inl ⟨fun _ hp => absurd hp List.not_mem_nil, rfl, hsame, h⟩
  | cons p rest ih =>
      obtain ⟨hp, hrest⟩ := List.forall_mem_cons.mp hps
      have hharmless := harmless_congr_of_skeleton (c := c) (i := p.index) hd hsame
      rw [exchangeFirst]
      dsimp only
      rcases tryExchange_cases h hlong hp fun q hq => absurd hq List.not_mem_nil with
        ⟨hnot, hfalse, hskeleton, hback⟩ | ⟨hyes, htrue, hswapped⟩
      · rw [hharmless] at hnot
        rw [hfalse, if_neg Bool.false_ne_true]
        rcases ih hrest hback (hskeleton.trans hsame) with
          ⟨hnone, hresult⟩ | ⟨before, q, after, heq, hbefore, hresult⟩
        · exact Or.inl ⟨List.forall_mem_cons.mpr ⟨hnot, hnone⟩, hresult⟩
        · exact Or.inr ⟨p :: before, q, after, congrArg (p :: ·) heq,
            List.forall_mem_cons.mpr ⟨hnot, hbefore⟩, hresult⟩
      · rw [htrue, if_pos rfl]
        exact Or.inr ⟨[], p, rest, rfl, fun _ hq => absurd hq List.not_mem_nil,
          hharmless.mp hyes, rfl, hswapped⟩

/-- Of listed candidates some are exchanged, no two of which have a common member. -/
theorem exists_exchangeAll (touched : List Nat) (hlong : 3 ≤ (d.ring c).order.length)
    (hps : ∀ p ∈ ps, p.StandsIn (d.ring c).order) (h : Swapped members c d e done)
    (htouched : ∀ q ∈ done, ∀ v ∈ q.members, v ∈ touched) :
    ∃ more, (∀ p ∈ more, p ∈ ps) ∧ (exchangeAll c touched ps e).1 = more.map Candidate.pair ∧
      Swapped members c d (exchangeAll c touched ps e).2 (done ++ more) := by
  induction ps generalizing touched done e with
  | nil => exact ⟨[], fun _ hp => hp, rfl, (List.append_nil done).symm ▸ h⟩
  | cons p rest ih =>
      obtain ⟨hp, hrest⟩ := List.forall_mem_cons.mp hps
      have hskip : ∀ {touched : List Nat} {done : List (Candidate K)} {e : Drawing K},
          Swapped members c d e done → (∀ q ∈ done, ∀ v ∈ q.members, v ∈ touched) →
          ∃ more, (∀ q ∈ more, q ∈ p :: rest) ∧
            (exchangeAll c touched rest e).1 = more.map Candidate.pair ∧
            Swapped members c d (exchangeAll c touched rest e).2 (done ++ more) := by
        intro touched done e h htouched
        obtain ⟨more, hmore, hresult⟩ := ih touched hrest h htouched
        exact ⟨more, fun q hq => List.mem_cons_of_mem p (hmore q hq), hresult⟩
      rw [exchangeAll]
      split
      next => exact hskip h htouched
      next hfresh =>
        simp only [Bool.or_eq_true, List.contains_iff_mem, not_or] at hfresh
        have hout : ∀ q ∈ done, q.members.Disjoint p.members := by
          intro q hq v hvq hvp
          have hmem := htouched q hq v hvq
          rcases List.mem_pair.mp hvp with rfl | rfl
          · exact hfresh.1 hmem
          · exact hfresh.2 hmem
        dsimp only
        rcases tryExchange_cases h hlong hp hout with
          ⟨-, hfalse, -, hback⟩ | ⟨-, htrue, hswapped⟩
        · rw [hfalse, if_neg Bool.false_ne_true]
          exact hskip hback htouched
        · rw [htrue, if_pos rfl]
          obtain ⟨more, hmore, hpairs, hresult⟩ :=
            ih (p.u :: p.v :: touched) hrest hswapped fun q hq v hv => by
              rcases List.mem_append.mp hq with hq | hq
              · exact List.mem_cons_of_mem _ (List.mem_cons_of_mem _ (htouched q hq v hv))
              · rw [List.mem_singleton.mp hq] at hv
                exact List.mem_append_left touched hv
          refine ⟨p :: more, ?_, congrArg (p.pair :: ·) hpairs, ?_⟩
          · exact List.forall_mem_cons.mpr
              ⟨List.mem_cons_self, fun q hq => List.mem_cons_of_mem p (hmore q hq)⟩
          · rwa [List.append_assoc] at hresult

/-- Where none of the listed candidates is exchanged, no exchange of one is harmless. -/
theorem not_harmless_of_exchangeAll (hd : d.skeleton.Seated members)
    (hlong : 3 ≤ (d.ring c).order.length) (hps : ∀ p ∈ ps, p.StandsIn (d.ring c).order)
    (h : Swapped members c d e []) (hsame : e.skeleton = d.skeleton)
    (hnone : (exchangeAll c [] ps e).1 = []) : ∀ p ∈ ps, ¬Harmless d c p.index := by
  induction ps generalizing e with
  | nil => exact fun _ hp => absurd hp List.not_mem_nil
  | cons p rest ih =>
      obtain ⟨hp, hrest⟩ := List.forall_mem_cons.mp hps
      rw [exchangeAll, if_neg (by simp)] at hnone
      dsimp only at hnone
      rcases tryExchange_cases h hlong hp fun q hq => absurd hq List.not_mem_nil with
        ⟨hnot, hfalse, hskeleton, hback⟩ | ⟨-, htrue, -⟩
      · rw [hfalse, if_neg Bool.false_ne_true] at hnone
        rw [harmless_congr_of_skeleton hd hsame] at hnot
        exact List.forall_mem_cons.mpr ⟨hnot, ih hrest hback (hskeleton.trans hsame) hnone⟩
      · rw [htrue, if_pos rfl] at hnone
        exact absurd hnone (List.cons_ne_nil _ _)

/-! ## Which candidates are exchanged -/

/-- A candidate of two out-nodes whose exchange is harmless in the order that the round found. -/
@[mk_iff]
structure Preferred (d : Drawing K) (m : ExchangeMemory) (c : Nat) (p : Candidate K) : Prop
    extends IsCandidate d m c p where
  bothOut : p.bothOut = true
  harmless : Harmless d c p.index

/-- Which candidates of a ring a round exchanges. -/
structure Chosen (d : Drawing K) (m : ExchangeMemory) (c : Nat) (done : List (Candidate K)) :
    Prop where
  isCandidate : ∀ p ∈ done, IsCandidate d m c p
  short : (d.ring c).order.length < 3 → done = []
  /-- A preferred candidate is exchanged alone, the one with the largest excess. -/
  best : 3 ≤ (d.ring c).order.length → (∃ p, Preferred d m c p) →
    ∃ p, done = [p] ∧ Preferred d m c p ∧ ∀ q, Preferred d m c q →
      q.excess < p.excess ∨ q.excess = p.excess ∧ p.index ≤ q.index
  others : (¬∃ p, Preferred d m c p) → ∀ p ∈ done, p.bothOut = false ∧ 1.0 < p.excess
  /-- A round is idle on a ring only where all exchanges that it would carry out do harm. -/
  idle : 3 ≤ (d.ring c).order.length → done = [] →
    ∀ p, IsCandidate d m c p → p.bothOut = true ∨ 1.0 < p.excess → ¬Harmless d c p.index

variable [OrderedScalar K]

/-- The first harmless one of the candidates with two out-nodes is chosen. -/
theorem chosen_singleton (hlong : 3 ≤ (d.ring c).order.length)
    {before after : List (Candidate K)}
    (heq : (d.candidates m c).filter (·.bothOut) = before ++ p :: after)
    (hbefore : ∀ q ∈ before, ¬Harmless d c q.index) (hp : Harmless d c p.index) :
    Chosen d m c [p] := by
  have hmem : ∀ q, q ∈ before ++ p :: after ↔ IsCandidate d m c q ∧ q.bothOut = true := by
    intro q
    rw [← heq, List.mem_filter, mem_candidates_iff]
  have hsorted := (pairwise_candidates d m c).filter (·.bothOut)
  rw [heq] at hsorted
  have hpreferred : Preferred d m c p := by
    obtain ⟨hcandidate, hout⟩ := (hmem p).mp (List.mem_append_right _ List.mem_cons_self)
    exact ⟨hcandidate, hout, hp⟩
  constructor
  case isCandidate => exact fun q hq => List.mem_singleton.mp hq ▸ hpreferred.toIsCandidate
  case short => exact fun hshort => absurd hshort (Nat.not_lt.mpr hlong)
  case best =>
    refine fun _ _ => ⟨p, rfl, hpreferred, fun q hq => ?_⟩
    rcases List.mem_append.mp ((hmem q).mpr ⟨hq.toIsCandidate, hq.bothOut⟩) with hq' | hq'
    · exact absurd hq.harmless (hbefore q hq')
    · rcases List.mem_cons.mp hq' with rfl | hafter
      · exact Or.inr ⟨rfl, Nat.le_refl _⟩
      · have hlater := List.rel_of_pairwise_cons (List.pairwise_append.mp hsorted).2.1 hafter
        exact hlater.imp_right fun h => ⟨h.1, Nat.le_of_lt h.2⟩
  case others => exact fun hnone => absurd ⟨p, hpreferred⟩ hnone
  case idle => exact fun _ hnil => absurd hnil (List.cons_ne_nil p [])

/-- Without a preferred candidate, others with an excess above 1 are chosen. -/
theorem chosen_others (hlong : 3 ≤ (d.ring c).order.length)
    (hnone : ∀ p ∈ (d.candidates m c).filter (·.bothOut), ¬Harmless d c p.index)
    (hdone : ∀ p ∈ done, p ∈ (d.candidates m c).filter
      fun p => !p.bothOut && decide (1.0 < p.excess))
    (hidle : done = [] → ∀ p ∈ (d.candidates m c).filter
      fun p => !p.bothOut && decide (1.0 < p.excess), ¬Harmless d c p.index) :
    Chosen d m c done := by
  have hpreferred : ¬∃ p, Preferred d m c p := by
    rintro ⟨p, hp⟩
    exact hnone p (List.mem_filter.mpr ⟨mem_candidates_iff.mpr hp.toIsCandidate, hp.bothOut⟩)
      hp.harmless
  constructor
  case isCandidate => exact fun p hp => mem_candidates_iff.mp (List.mem_of_mem_filter (hdone p hp))
  case short => exact fun hshort => absurd hshort (Nat.not_lt.mpr hlong)
  case best => exact fun _ hsome => absurd hsome hpreferred
  case others =>
    intro _ p hp
    have hweak := (List.mem_filter.mp (hdone p hp)).2
    rwa [Bool.and_eq_true, Bool.not_eq_true', decide_eq_true_iff] at hweak
  case idle =>
    intro _ hnil p hp hsome
    have hmem := mem_candidates_iff.mpr hp
    by_cases hout : p.bothOut = true
    · exact hnone p (List.mem_filter.mpr ⟨hmem, hout⟩)
    · refine hidle hnil p (List.mem_filter.mpr ⟨hmem, ?_⟩)
      rw [Bool.and_eq_true, Bool.not_eq_true', decide_eq_true_iff]
      exact ⟨Bool.not_eq_true _ ▸ hout, hsome.resolve_left hout⟩

/-- What a round does when the turn of a ring comes. -/
theorem exists_exchangeOnRing (hd : d.skeleton.Sound members) (m : ExchangeMemory)
    (pairs : List (Nat × Nat)) (c : Nat) : ∃ done, Chosen d m c done ∧
      (exchangeOnRing m (pairs, d) c).1 = pairs ++ done.map Candidate.pair ∧
      Swapped members c d (exchangeOnRing m (pairs, d) c).2 done ∧
      ((d.ring c).order.length < 3 → (exchangeOnRing m (pairs, d) c).2 = d) := by
  by_cases hshort : (d.ring c).order.length < 3
  · refine ⟨[], ?_, ?_⟩
    · refine ⟨fun _ hp => absurd hp List.not_mem_nil, fun _ => rfl, ?_, ?_, ?_⟩
      · exact fun hlong => absurd hshort (Nat.not_lt.mpr hlong)
      · exact fun _ _ hp => absurd hp List.not_mem_nil
      · exact fun hlong => absurd hshort (Nat.not_lt.mpr hlong)
    · rw [exchangeOnRing, if_pos hshort, List.map_nil, List.append_nil]
      exact ⟨rfl, .refl hd c, fun _ => rfl⟩
  · have hlong : 3 ≤ (d.ring c).order.length := Nat.le_of_not_lt hshort
    have hstands : ∀ (f : Candidate K → Bool), ∀ p ∈ (d.candidates m c).filter f,
        p.StandsIn (d.ring c).order := fun f p hp =>
      (mem_candidates_iff.mp (List.mem_of_mem_filter hp)).toStandsIn
    rw [exchangeOnRing, if_neg hshort]
    dsimp only
    rcases exchangeFirst_cases hd.seated hlong (hstands (·.bothOut)) (.refl hd c) rfl with
      ⟨hnone, hfirst, hsame, hkept⟩ | ⟨before, p, after, heq, hbefore, hp, hfirst, hswapped⟩
    · obtain ⟨more, hmore, hpairs, hswapped⟩ := exists_exchangeAll [] hlong
        (hstands fun p => !p.bothOut && decide (1.0 < p.excess)) hkept
        fun q hq => absurd hq List.not_mem_nil
      rw [hfirst]
      dsimp only
      refine ⟨more, chosen_others hlong hnone hmore fun hnil => ?_, congrArg (pairs ++ ·) hpairs,
        hswapped, fun h => absurd h hshort⟩
      refine not_harmless_of_exchangeAll hd.seated hlong (hstands _) hkept hsame ?_
      rw [hpairs, hnil, List.map_nil]
    · rw [hfirst]
      exact ⟨[p], chosen_singleton hlong heq hbefore hp, rfl, hswapped, fun h => absurd h hshort⟩

end Drawing

end RingLayout
