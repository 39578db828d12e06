import Mathlib.Data.List.ProdSigma
import Mathlib.Data.Nat.ModEq
import Mathlib.Data.Set.Card
import RingLayout.Proofs.AsBuilt
import RingLayout.Proofs.Reversal

/-! # Links to a facing ring

Two links from neighbours on a ring to distinct members of another ring are told apart by the turn
from the first far end to the second. Seen from the other neighbour the rest of the full turn is
left, so what is less than half a turn for one is more for the other.
-/

namespace RingLayout

namespace CyclicOrder

variable {order : List Nat} {a b k l : Nat}

/-- `b` stands `k` steps after another member `a`. -/
structure Follows (order : List Nat) (a b k : Nat) : Prop where
  pos : 0 < k
  lt_length : k < order.length
  exists_index : ∃ i : Nat, order[i]? = some a ∧ order[(i + k) % order.length]? = some b

namespace Follows

theorem left_mem (h : Follows order a b k) : a ∈ order :=
  have ⟨_, ha, _⟩ := h.exists_index
  List.mem_of_getElem? ha

theorem right_mem (h : Follows order a b k) : b ∈ order :=
  have ⟨_, _, hb⟩ := h.exists_index
  List.mem_of_getElem? hb

/-- The rest of the turn leads back. -/
theorem symm (h : Follows order a b k) : Follows order b a (order.length - k) := by
  obtain ⟨hpos, hlt, i, ha, hb⟩ := h
  have hi := (List.getElem?_eq_some_iff.mp ha).1
  constructor
  case pos => omega
  case lt_length => omega
  case exists_index =>
    refine ⟨(i + k) % order.length, hb, ?_⟩
    rw [Nat.mod_add_mod, show i + k + (order.length - k) = i + order.length by omega,
      Nat.add_mod_right, Nat.mod_eq_of_lt hi]
    exact ha

variable (horder : order.Nodup)
include horder

theorem index_eq {i j : Nat} (hi : order[i]? = some a) (hj : order[j]? = some a) : i = j :=
  (List.getElem?_inj (List.getElem?_eq_some_iff.mp hi).1 horder).mp (hi.trans hj.symm)

theorem steps_unique (h : Follows order a b k) (h' : Follows order a b l) : k = l := by
  obtain ⟨-, hk, i, ha, hb⟩ := h
  obtain ⟨-, hl, j, ha', hb'⟩ := h'
  obtain rfl := index_eq horder ha ha'
  have hmod : i + k ≡ i + l [MOD order.length] := index_eq horder hb hb'
  exact (Nat.ModEq.add_left_cancel' i hmod).eq_of_lt_of_lt hk hl

theorem ne (h : Follows order a b k) : a ≠ b := by
  rintro rfl
  obtain ⟨hpos, hlt, i, ha, hb⟩ := h
  have hmod : i + 0 ≡ i + k [MOD order.length] := by
    rw [Nat.ModEq, ← index_eq horder ha hb, Nat.add_zero,
      Nat.mod_eq_of_lt (List.getElem?_eq_some_iff.mp ha).1]
  have hzero := (Nat.ModEq.add_left_cancel' i hmod).eq_of_lt_of_lt (hpos.trans hlt) hlt
  exact hpos.ne hzero

end Follows

theorem follows_of_getElem? {i j : Nat} (ha : order[i]? = some a) (hb : order[j]? = some b)
    (hne : i ≠ j) : Follows order a b ((j + order.length - i) % order.length) := by
  have hi := (List.getElem?_eq_some_iff.mp ha).1
  have hj := (List.getElem?_eq_some_iff.mp hb).1
  have hturn : (i + (j + order.length - i) % order.length) % order.length = j := by
    rw [Nat.add_mod_mod, show i + (j + order.length - i) = j + order.length by omega,
      Nat.add_mod_right, Nat.mod_eq_of_lt hj]
  constructor
  case pos =>
    apply Nat.pos_of_ne_zero
    intro hzero
    rw [hzero, Nat.add_zero, Nat.mod_eq_of_lt hi] at hturn
    exact hne hturn
  case lt_length => exact Nat.mod_lt _ (Nat.zero_lt_of_lt hi)
  case exists_index => exact ⟨i, ha, hturn.symm ▸ hb⟩

theorem lastIndex?_eq_some_iff (horder : order.Nodup) {i : Nat} :
    lastIndex? a order = some i ↔ order[i]? = some a := by
  induction order generalizing i with
  | nil => simp [lastIndex?]
  | cons u rest ih =>
      obtain ⟨hu, hrest⟩ := List.nodup_cons.mp horder
      rw [lastIndex?]
      split
      next j hj =>
        have hne : u ≠ a := by
          rintro rfl
          exact hu (List.mem_of_getElem? ((ih hrest).mp hj))
        cases i with
        | zero => simp [hne]
        | succ i => rw [List.getElem?_cons_succ, ← ih hrest, hj, Option.some.injEq,
            Option.some.injEq, Nat.succ_inj]
      next hnone =>
        cases i with
        | zero => simp
        | succ i =>
            rw [List.getElem?_cons_succ, ← ih hrest, hnone]
            split <;> simp

/-- Half a turn ahead or less comes before. -/
theorem precedes?_eq_some_iff (horder : order.Nodup) {x : Bool} : precedes? order a b = some x ↔
    ∃ k, Follows order a b k ∧ decide (2 * k ≤ order.length) = x := by
  constructor
  · intro h
    unfold precedes? at h
    split at h
    next i j hi hj =>
      rw [lastIndex?_eq_some_iff horder] at hi hj
      split at h
      next => cases h
      next hne =>
        refine ⟨_, follows_of_getElem? hi hj hne, ?_⟩
        rw [Nat.mul_comm]
        exact Option.some.inj h
    next => cases h
  · rintro ⟨k, h, rfl⟩
    obtain ⟨i, ha, hb⟩ := h.exists_index
    generalize (i + k) % order.length = j at hb
    have hne : i ≠ j := by
      rintro rfl
      exact h.ne horder (Option.some.inj (ha.symm.trans hb))
    have hk := (follows_of_getElem? ha hb hne).steps_unique horder h
    unfold precedes?
    rw [(lastIndex?_eq_some_iff horder).mpr ha, (lastIndex?_eq_some_iff horder).mpr hb]
    dsimp only
    rw [if_neg hne, hk, Nat.mul_comm]

end CyclicOrder

/-- What is made of all pairs from two lists, in one pass. -/
theorem flatMap_filterMap_eq_filterMap_product {α β γ δ ε : Type} (f : α → Option γ)
    (g : β → Option δ) (h : γ → δ → Option ε) (l : List α) (m : List β) :
    ((l.filterMap f).flatMap fun a => (m.filterMap g).filterMap (h a)) =
      (l ×ˢ m).filterMap fun p => (f p.1).bind fun a => (g p.2).bind (h a) := by
  induction l with
  | nil => rfl
  | cons x rest ih =>
      rw [List.product_cons, List.filterMap_append, List.filterMap_map, ← ih]
      cases hx : f x with
      | none => simp [hx]
      | some a => simp [hx, List.filterMap_filterMap]

theorem countP_eq_ncard {α : Type} {l : List α} (hl : l.Nodup) (p : α → Bool) :
    l.countP p = {a | a ∈ l ∧ p a = true}.ncard := by
  classical
  rw [List.countP_eq_length_filter, ← List.toFinset_card_of_nodup (hl.filter p),
    ← Set.ncard_coe_finset]
  congr 1
  ext a
  simp

namespace Drawing

variable {K : Type} [Scalar K] {members : Nat → List Nat} {d e : Drawing K} {c u v : Nat}

open CyclicOrder (Follows)

/-! ## Facing links -/

/-- A link of `v` that is not within one ring. -/
@[mk_iff]
structure Leaves (d : Drawing K) (v l : Nat) : Prop where
  lt_size : l < d.links.size
  touches : (d.link l).Touches v
  isInner_eq : (d.link l).isInner = false

/-- Two links, of `u` and of `v`, that end on a ring `b` other than `c`, the second one `k` steps
after the first. -/
@[mk_iff]
structure Faces (d : Drawing K) (c u v : Nat) (p : Nat × Nat) (b k : Nat) : Prop where
  first : d.Leaves u p.1
  second : d.Leaves v p.2
  ring_ne : b ≠ c
  follows : Follows (d.ring b).order ((d.link p.1).other u) ((d.link p.2).other v) k

/-- The pairs of links, of `u` and of `v`, to one other ring by the turn between their far ends:
less than, exactly or more than half of it. -/
def facing (d : Drawing K) (c u v : Nat) (turn : Ordering) : Set (Nat × Nat) :=
  {p | ∃ b k, d.Faces c u v p b k ∧ compare (2 * k) (d.ring b).order.length = turn}

/-- How many pairs of links have a turn between their far ends. -/
noncomputable def turnCount (d : Drawing K) (c u v : Nat) (turn : Ordering) : Nat :=
  (d.facing c u v turn).ncard

theorem Faces.symm {p : Nat × Nat} {b k : Nat} (h : d.Faces c u v p b k) :
    d.Faces c v u p.swap b ((d.ring b).order.length - k) :=
  ⟨h.second, h.first, h.ring_ne, h.follows.symm⟩

/-- What is less than half a turn one way is more than that the other way. -/
theorem mem_facing_swap {p : Nat × Nat} {turn : Ordering} (h : p ∈ d.facing c u v turn) :
    p.swap ∈ d.facing c v u turn.swap := by
  obtain ⟨b, k, hfaces, hturn⟩ := h
  have hlt := hfaces.follows.lt_length
  refine ⟨b, _, hfaces.symm, ?_⟩
  rw [← hturn, Nat.compare_swap]
  generalize (d.ring b).order.length = n at hlt
  have hless : 2 * (n - k) < n ↔ n < 2 * k := by omega
  have hmore : n < 2 * (n - k) ↔ 2 * k < n := by omega
  simp only [Nat.compare_eq_ite_lt, hless, hmore]

theorem turnCount_swap (d : Drawing K) (c u v : Nat) (turn : Ordering) :
    d.turnCount c v u turn.swap = d.turnCount c u v turn := by
  have heq : d.facing c v u turn.swap = Prod.swap '' d.facing c u v turn := by
    ext p
    rw [Set.image_swap_eq_preimage_swap, Set.mem_preimage]
    constructor
    · intro h
      simpa using mem_facing_swap h
    · intro h
      simpa using mem_facing_swap h
  rw [turnCount, turnCount, heq, Set.ncard_image_of_injective _ Prod.swap_injective]

section Wired

/-- What is known of the links of a drawing: the seats list their outer links, and these lead away
from the ring. -/
structure Wired (members : Nat → List Nat) (d : Drawing K) : Prop where
  sound : d.skeleton.Sound members
  outward : ∀ c, d.Outward c
  outerLinksOf_nodup : ∀ v, (d.outerLinksOf v).Nodup
  mem_outerLinksOf_iff : ∀ v, (d.body v).isSeated → ∀ l, l ∈ d.outerLinksOf v ↔ d.Leaves v l

theorem exists_seat?_of_isSeated (hv : (d.body v).isSeated) : ∃ s, (d.body v).seat? = some s :=
  Option.isSome_iff_exists.mp hv

theorem wired_of_evolves {g : Graph K} {o : Options K} {start : Drawing K}
    (h : build g o = .ok start)
    (hevolves : Skeleton.Evolves (fun c => (start.ring c).order) start.skeleton d.skeleton) :
    Wired (fun c => (start.ring c).order) d := by
  have hlisted := (linksListed_build h).of_evolves hevolves
  constructor
  case sound => exact hevolves.sound
  case outward => exact outward_of_evolves h hevolves
  case outerLinksOf_nodup =>
    intro v
    unfold outerLinksOf
    split
    next s hs =>
      obtain ⟨cs, -, hviews⟩ := linkViews_build h
      obtain ⟨s', hs', -, heq⟩ := seat_links_of_evolves hevolves hs
      exact heq ▸ (hviews.seat_outerLinks v s' hs').increasing.imp Nat.ne_of_lt
    next => exact List.nodup_nil
  case mem_outerLinksOf_iff =>
    intro v hv l
    obtain ⟨s, hs⟩ := exists_seat?_of_isSeated hv
    rw [outerLinksOf, hs]
    refine (hlisted.mem_outerLinks_iff v s hs l).trans ?_
    exact ⟨fun ⟨hl, ht, hi⟩ => ⟨hl, ht, hi⟩, fun h => ⟨h.lt_size, h.touches, h.isInner_eq⟩⟩

/-- The observed orders are those of the rings. -/
def Observed (d : Drawing K) : Prop :=
  ∀ c, (d.ring c).order ≠ [] → (d.ring c).observedOrder = some (d.ring c).order

/-- Whether two links cross, if they end on one ring. -/
def linkPairCrosses? (d : Drawing K) (u v : Nat) (p : Nat × Nat) : Option Bool :=
  (d.seatedEnd? u p.1).bind fun a => (d.seatedEnd? v p.2).bind (d.linksCross? a)

theorem linkCrossings_eq (hu : (d.body u).isSeated) (hv : (d.body v).isSeated) :
    d.linkCrossings u v =
      (d.outerLinksOf u ×ˢ d.outerLinksOf v).filterMap (d.linkPairCrosses? u v) := by
  obtain ⟨s, hs⟩ := exists_seat?_of_isSeated hu
  obtain ⟨t, ht⟩ := exists_seat?_of_isSeated hv
  rw [linkCrossings, outerLinksOf, outerLinksOf, hs, ht]
  exact flatMap_filterMap_eq_filterMap_product _ _ _ _ _

theorem seatedEnd?_eq_some_iff (hd : d.skeleton.Sound members) {l a b : Nat} :
    d.seatedEnd? v l = some (a, b) ↔ (d.link l).other v = a ∧ a ∈ (d.ring b).order := by
  rw [seatedEnd?, Option.map_eq_some_iff]
  constructor
  · rintro ⟨s, hs, heq⟩
    obtain ⟨rfl, rfl⟩ := Prod.mk.inj heq
    refine ⟨rfl, List.mem_of_getElem? ((seat?_map_eq_some_iff hd.seated _ _ s.index).mp ?_)⟩
    rw [hs]
    rfl
  · rintro ⟨rfl, ha⟩
    obtain ⟨s, hs, heq⟩ := Option.map_eq_some_iff.mp
      ((seat?_map_eq_some_iff hd.seated _ b _).mpr (List.getElem?_idxOf ha))
    exact ⟨s, hs, congrArg (Prod.mk _) (congrArg Prod.fst heq)⟩

theorem linksCross?_eq_some_iff (hd : d.skeleton.Sound members) (hobserved : Observed d)
    {a b : Nat × Nat} (ha : a.1 ∈ (d.ring a.2).order) {x : Bool} : d.linksCross? a b = some x ↔
      b.2 = a.2 ∧ ∃ k, Follows (d.ring a.2).order a.1 b.1 k ∧
        decide (2 * k ≤ (d.ring a.2).order.length) = x := by
  have hnodup : (d.ring a.2).order.Nodup := hd.seated.order_nodup a.2
  rw [linksCross?, hobserved a.2 (List.ne_nil_of_mem ha)]
  dsimp only
  split
  next hsame =>
    constructor
    · intro h
      cases h
    · rintro ⟨hring, k, hfollows, -⟩
      exact absurd hsame (not_or.mpr ⟨hfollows.ne hnodup, not_not.mpr hring.symm⟩)
  next hother =>
    obtain ⟨-, hring⟩ := not_or.mp hother
    rw [CyclicOrder.precedes?_eq_some_iff hnodup, and_iff_right (not_not.mp hring).symm]

variable (h : Wired members d) (hu : u ∈ (d.ring c).order) (hv : v ∈ (d.ring c).order)
include h hu hv

theorem mem_product_outerLinksOf {p : Nat × Nat} :
    p ∈ d.outerLinksOf u ×ˢ d.outerLinksOf v ↔ d.Leaves u p.1 ∧ d.Leaves v p.2 := by
  rw [List.mem_product, h.mem_outerLinksOf_iff u (isSeated_of_mem_order h.sound hu),
    h.mem_outerLinksOf_iff v (isSeated_of_mem_order h.sound hv)]

theorem linkPairCrosses?_eq_some_iff (hobserved : Observed d) {p : Nat × Nat} {x : Bool}
    (hp : p ∈ d.outerLinksOf u ×ˢ d.outerLinksOf v) : d.linkPairCrosses? u v p = some x ↔
      ∃ b k, d.Faces c u v p b k ∧ decide (2 * k ≤ (d.ring b).order.length) = x := by
  obtain ⟨hfirst, hsecond⟩ := (mem_product_outerLinksOf h hu hv).mp hp
  simp only [linkPairCrosses?, Option.bind_eq_some_iff, Prod.exists, seatedEnd?_eq_some_iff h.sound]
  constructor
  · rintro ⟨a, b, ⟨rfl, ha⟩, a', b', ⟨rfl, ha'⟩, hcross⟩
    obtain ⟨-, k, hfollows, hx⟩ := (linksCross?_eq_some_iff h.sound hobserved ha).mp hcross
    refine ⟨b, k, ⟨hfirst, hsecond, ?_, hfollows⟩, hx⟩
    rintro rfl
    exact (h.outward b (u, p.1) (mem_spokes.mpr ⟨hu, (List.mem_product.mp hp).1⟩)).2 ha
  · rintro ⟨b, k, hfaces, hx⟩
    have ha := hfaces.follows.left_mem
    exact ⟨_, b, ⟨rfl, ha⟩, _, b, ⟨rfl, hfaces.follows.right_mem⟩,
      (linksCross?_eq_some_iff h.sound hobserved ha).mpr ⟨rfl, k, hfaces.follows, hx⟩⟩

theorem count_linkCrossings (hobserved : Observed d) (x : Bool) : (d.linkCrossings u v).count x =
    {p | ∃ b k, d.Faces c u v p b k ∧
      decide (2 * k ≤ (d.ring b).order.length) = x}.ncard := by
  have hpairs : (d.outerLinksOf u ×ˢ d.outerLinksOf v).Nodup :=
    (h.outerLinksOf_nodup u).product (h.outerLinksOf_nodup v)
  rw [linkCrossings_eq (isSeated_of_mem_order h.sound hu) (isSeated_of_mem_order h.sound hv),
    List.count, List.countP_filterMap, countP_eq_ncard hpairs]
  congr 1
  ext p
  have hcross : ((d.linkPairCrosses? u v p).map (· == x)).getD false = true ↔
      d.linkPairCrosses? u v p = some x := by
    cases d.linkPairCrosses? u v p <;> simp
  rw [Set.mem_ofPred_eq, Set.mem_ofPred_eq, hcross]
  constructor
  · rintro ⟨hp, hx⟩
    exact (linkPairCrosses?_eq_some_iff h hu hv hobserved hp).mp hx
  · rintro ⟨b, k, hfaces, hx⟩
    have hp := (mem_product_outerLinksOf h hu hv).mpr ⟨hfaces.first, hfaces.second⟩
    exact ⟨hp, (linkPairCrosses?_eq_some_iff h hu hv hobserved hp).mpr ⟨b, k, hfaces, hx⟩⟩

theorem finite_facing (turn : Ordering) : (d.facing c u v turn).Finite := by
  apply (List.finite_toSet (d.outerLinksOf u ×ˢ d.outerLinksOf v)).subset
  rintro p ⟨b, k, hfaces, -⟩
  exact (mem_product_outerLinksOf h hu hv).mpr ⟨hfaces.first, hfaces.second⟩

omit hu hv in
/-- Two links have one turn between their far ends. -/
theorem turn_eq_of_mem_facing {turn turn' : Ordering} {p : Nat × Nat}
    (hp : p ∈ d.facing c u v turn) (hp' : p ∈ d.facing c u v turn') : turn = turn' := by
  obtain ⟨b, k, hfaces, hturn⟩ := hp
  obtain ⟨b', k', hfaces', hturn'⟩ := hp'
  obtain rfl := h.sound.seated.ring_unique hfaces.follows.left_mem hfaces'.follows.left_mem
  obtain rfl := hfaces.follows.steps_unique (h.sound.seated.order_nodup b) hfaces'.follows
  exact hturn.symm.trans hturn'

/-- Links cross up to half a turn and do not cross beyond it. -/
theorem exchangeUntangles_eq (hobserved : Observed d) : d.exchangeUntangles u v =
    decide (d.turnCount c u v .gt ≤ d.turnCount c u v .lt + d.turnCount c u v .eq) := by
  have hcross : (d.linkCrossings u v).count true =
      d.turnCount c u v .lt + d.turnCount c u v .eq := by
    have hdisjoint : ∀ p ∈ d.facing c u v .lt, p ∉ d.facing c u v .eq :=
      fun p hlt heq => nomatch turn_eq_of_mem_facing h hlt heq
    rw [count_linkCrossings h hu hv hobserved, turnCount, turnCount, ← Set.ncard_union_eq
      (Set.disjoint_left.mpr hdisjoint) (finite_facing h hu hv _) (finite_facing h hu hv _)]
    congr 1
    ext p
    simp only [facing, Set.mem_union, Set.mem_ofPred_eq, decide_eq_true_iff, compare_lt_iff_lt,
      compare_eq_iff_eq, Nat.le_iff_lt_or_eq, and_or_left, exists_or]
  have hpart : (d.linkCrossings u v).count false = d.turnCount c u v .gt := by
    rw [count_linkCrossings h hu hv hobserved, turnCount]
    simp only [facing, decide_eq_false_iff_not, Nat.not_le, compare_gt_iff_gt]
  rw [exchangeUntangles, hcross, hpart]

end Wired

/-- Facing links are a matter of all links and of the orders of the other rings. -/
theorem turnCount_congr (hsize : e.links.size = d.links.size)
    (hlink : ∀ l, (e.link l).shape = (d.link l).shape)
    (horder : ∀ b, b ≠ c → (e.ring b).order = (d.ring b).order) (turn : Ordering) :
    e.turnCount c u v turn = d.turnCount c u v turn := by
  have hsource : ∀ l, (e.link l).source = (d.link l).source :=
    fun l => congrArg LinkShape.source (hlink l)
  have htarget : ∀ l, (e.link l).target = (d.link l).target :=
    fun l => congrArg LinkShape.target (hlink l)
  have hinner : ∀ l, (e.link l).isInner = (d.link l).isInner :=
    fun l => congrArg (fun s => s.ring.isSome) (hlink l)
  have hleaves : ∀ w l, e.Leaves w l ↔ d.Leaves w l := by
    simp only [leaves_iff, hsize, Link.Touches, hsource, htarget, hinner, implies_true]
  have hother : ∀ w l, (e.link l).other w = (d.link l).other w := by
    simp only [Link.other, hsource, htarget, implies_true]
  rw [turnCount, turnCount]
  congr 1
  ext p
  apply exists_congr
  intro b
  by_cases hb : b = c
  · simp only [faces_iff, ne_eq, hb, not_true_eq_false, false_and, and_false]
  · simp only [faces_iff, hleaves, hother, horder b hb]

end Drawing

end RingLayout
