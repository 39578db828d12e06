import RingLayout.Proofs.Exchanges.Attempts
import RingLayout.Proofs.Exchanges.Facing
import RingLayout.Proofs.Motions.Operations

/-! # The rules of exchanges

A refreshment of the rules judges every two neighbours once, by the turns between the far ends of
their links. After an exchange the two are judged again the other way round: those links that
crossed at less than half a turn now do not cross, and the others do. So the exchange and its
opposite are not both refused, and where the exchange uncrosses more than it crosses it is not
undone at once.
-/

namespace RingLayout

namespace CyclicOrder

theorem next_inj {order : List Nat} {i j : Nat} (hi : i < order.length) (hj : j < order.length)
    (h : next order i = next order j) : i = j := by
  rw [next, next, Nat.max_eq_left (Nat.one_le_of_lt hi)] at h
  exact (Nat.ModEq.add_right_cancel' 1 h).eq_of_lt_of_lt hi hj

end CyclicOrder

/-- A loop establishes what one of its steps establishes and the others keep. -/
theorem foldl_establishes {σ α : Type} {step : σ → α → σ} {I P : σ → Prop} {l : List α} {a : α}
    (ha : a ∈ l) (hinv : ∀ s, I s → ∀ b, I (step s b))
    (hkeep : ∀ s, I s → P s → ∀ b, P (step s b)) (hmake : ∀ s, I s → P (step s a)) {s : σ}
    (hs : I s) : P (l.foldl step s) := by
  obtain ⟨before, after, rfl⟩ := List.append_of_mem ha
  rw [List.foldl_append, List.foldl_cons]
  have hbefore : I (before.foldl step s) :=
    List.foldlRecOn before step hs fun s hs b _ => hinv s hs b
  have hafter : I (after.foldl step (step (before.foldl step s) a)) ∧
      P (after.foldl step (step (before.foldl step s) a)) := by
    apply List.foldlRecOn (motive := fun s => I s ∧ P s) after step
    · exact ⟨hinv _ hbefore a, hmake _ hbefore⟩
    · exact fun s hs b _ => ⟨hinv s hs.1 b, hkeep s hs.1 hs.2 b⟩
  exact hafter.2

namespace Drawing

variable {K : Type} [Scalar K] {members : Nat → List Nat} {d e : Drawing K} {b c i j u v w : Nat}
  {allowed : Bool}

/-- The verdict on `u` and the next member `v`, as the seats of both have it. -/
structure Judged (d : Drawing K) (u v : Nat) (allowed : Bool) : Prop where
  swapsNext : ∃ s, (d.body u).seat? = some s ∧ s.swapsNext = allowed
  swapsPrevious : ∃ t, (d.body v).seat? = some t ∧ t.swapsPrevious = allowed

omit [Scalar K] in
theorem swapsNext_iff {b : Body K} :
    (∃ s, b.seat? = some s ∧ s.swapsNext = allowed) ↔ b.rules.map Prod.fst = some allowed := by
  rw [Body.rules, Option.map_map, Option.map_eq_some_iff]
  rfl

omit [Scalar K] in
theorem swapsPrevious_iff {b : Body K} :
    (∃ s, b.seat? = some s ∧ s.swapsPrevious = allowed) ↔ b.rules.map Prod.snd = some allowed := by
  rw [Body.rules, Option.map_map, Option.map_eq_some_iff]
  rfl

theorem judged_iff : Judged d u v allowed ↔ (d.body u).rules.map Prod.fst = some allowed ∧
    (d.body v).rules.map Prod.snd = some allowed := by
  rw [← swapsNext_iff, ← swapsPrevious_iff]
  exact ⟨fun h => ⟨h.swapsNext, h.swapsPrevious⟩, fun h => ⟨h.1, h.2⟩⟩

theorem rules_modifySeat (d : Drawing K) (hv : v < d.bodies.size) {f : Seat K → Seat K}
    {F : Bool × Bool → Bool × Bool}
    (hf : ∀ s, ((f s).swapsNext, (f s).swapsPrevious) = F (s.swapsNext, s.swapsPrevious))
    (w : Nat) : ((d.modifySeat v f).body w).rules =
      (d.body w).rules.map fun r => if w = v then F r else r := by
  rw [modifySeat, body_modifyBody d hv]
  split
  next hw =>
    subst hw
    generalize d.body w = b
    obtain ⟨id, group, box, spring, repulsion, gravitation, role⟩ := b
    cases role with
    | seated s => exact congrArg some (hf s)
    | _ => rfl
  next => simp

/-- The verdict on a pair is written down at both seats, and at no other. -/
theorem rules_refreshPair (hd : d.skeleton.Sound members) (hu : (d.ring c).order[i]? = some u)
    (hv : (d.ring c).order[CyclicOrder.next (d.ring c).order i]? = some v)
    (hallowed : (decide (3 ≤ (d.ring c).order.length) && d.exchangeUntangles u v) = allowed)
    (w : Nat) : ((refreshPair c d i).body w).rules = (d.body w).rules.map fun r =>
      (if w = u then allowed else r.1, if w = v then allowed else r.2) := by
  have husize := lt_size_of_seated hd.seated (List.mem_of_getElem? hu)
  have hvsize := lt_size_of_seated hd.seated (List.mem_of_getElem? hv)
  have heq : refreshPair c d i =
      (d.modifySeat u fun s => { s with swapsNext := allowed }).modifySeat v
        fun s => { s with swapsPrevious := allowed } := by
    unfold refreshPair
    simp only [hu, hv, hallowed]
  rw [heq, rules_modifySeat _ (hvsize.trans_eq Array.size_modify.symm)
      (F := fun r => (r.1, allowed)) fun _ => rfl,
    rules_modifySeat d husize (F := fun r => (allowed, r.2)) fun _ => rfl, Option.map_map]
  congr 1
  ext r
  · simp only [Function.comp_apply]
    split <;> split <;> rfl
  · simp only [Function.comp_apply]
    split <;> split <;> rfl

/-- A pair with no slot is not judged. -/
theorem refreshPair_of_none (h : (d.ring c).order[i]? = none) : refreshPair c d i = d := by
  unfold refreshPair
  simp only [h]

/-! ## A refreshment -/

/-- What a drawing keeps of another one while the rules are refreshed. -/
structure Refreshing (d e : Drawing K) : Prop where
  skeleton_eq : e.skeleton = d.skeleton
  observed : Observed e

namespace Refreshing

theorem order_eq (he : Refreshing d e) (c : Nat) : (e.ring c).order = (d.ring c).order :=
  congrArg (fun s => (s.ring c).order) he.skeleton_eq

theorem refreshPair (he : Refreshing d e) (c i : Nat) : Refreshing d (refreshPair c e i) where
  skeleton_eq := (e.skeleton_refreshPair c i).trans he.skeleton_eq
  observed b := by
    rw [ring_of_rings (e.rings_refreshPair c i)]
    exact he.observed b

theorem observeOrders (d : Drawing K) : Refreshing d (d.ringNumbers.foldl observeOrder d) where
  skeleton_eq := d.skeleton_observeOrders _
  observed c hc := by
    have hlt : c < d.rings.size := by
      have hsize := congrArg Skeleton.ringCount (d.skeleton_observeOrders d.ringNumbers)
      obtain ⟨v, hv⟩ := List.exists_mem_of_ne_nil _ hc
      exact (lt_size_of_mem_order hv).trans_eq hsize
    exact observedOrder_observeOrders hlt (Or.inl (List.mem_range.mpr hlt))

end Refreshing

section Refresh

variable (hd : d.skeleton.Sound members) (hlong : 3 ≤ (d.ring c).order.length)
  (hu : (d.ring c).order[i]? = some u)
  (hv : (d.ring c).order[CyclicOrder.next (d.ring c).order i]? = some v)
  (hverdict : ∀ e, Refreshing d e → e.exchangeUntangles u v = allowed)
include hd hlong hu hv hverdict

/-- When the turn of a pair comes, it is judged. -/
theorem judged_refreshPair (he : Refreshing d e) : Judged (refreshPair c e i) u v allowed := by
  have hsound : e.skeleton.Sound members := he.skeleton_eq ▸ hd
  rw [← he.order_eq c] at hlong hu hv
  have hallowed : (decide (3 ≤ (e.ring c).order.length) && e.exchangeUntangles u v) = allowed := by
    rw [decide_eq_true hlong, hverdict e he, Bool.true_and]
  have hrules : ∀ {w : Nat}, w ∈ (e.ring c).order → ∃ r, (e.body w).rules = some r := by
    intro w hw
    obtain ⟨s, hs⟩ := exists_seat?_of_isSeated (isSeated_of_mem_order hsound hw)
    exact ⟨_, congrArg (Option.map _) hs⟩
  obtain ⟨r, hr⟩ := hrules (List.mem_of_getElem? hu)
  obtain ⟨r', hr'⟩ := hrules (List.mem_of_getElem? hv)
  rw [judged_iff, rules_refreshPair hsound hu hv hallowed, rules_refreshPair hsound hu hv hallowed,
    hr, hr']
  simp only [Option.map_some, if_true, and_self]

/-- Other pairs leave the verdict on a pair alone. -/
theorem judged_refreshPair_of_judged (he : Refreshing d e) (hjudged : Judged e u v allowed)
    (b j : Nat) : Judged (refreshPair b e j) u v allowed := by
  by_cases hsame : b = c ∧ j = i
  case pos =>
    obtain ⟨rfl, rfl⟩ := hsame
    exact judged_refreshPair hd hlong hu hv hverdict he
  case neg =>
    cases hu' : (e.ring b).order[j]? with
    | none => rwa [refreshPair_of_none hu']
    | some u' =>
        have hj := (List.getElem?_eq_some_iff.mp hu').1
        have hnext := CyclicOrder.next_lt (List.ne_nil_of_length_pos (Nat.zero_lt_of_lt hj)) j
        have hv' := List.getElem?_eq_getElem hnext
        generalize (e.ring b).order[CyclicOrder.next (e.ring b).order j] = v' at hv'
        rw [judged_iff, rules_refreshPair (he.skeleton_eq ▸ hd) hu' hv' rfl,
          rules_refreshPair (he.skeleton_eq ▸ hd) hu' hv' rfl, Option.map_map, Option.map_map]
        rw [he.order_eq b] at hu' hv' hj
        -- every member comes first in one pair and second in one
        have hring : ∀ {w : Nat}, w ∈ (d.ring b).order → w ∈ (d.ring c).order → b = c :=
          hd.seated.ring_unique
        have hnodup : (d.ring c).order.Nodup := hd.seated.order_nodup c
        have hune : u ≠ u' := by
          rintro rfl
          obtain rfl := hring (List.mem_of_getElem? hu') (List.mem_of_getElem? hu)
          exact hsame ⟨rfl, CyclicOrder.Follows.index_eq hnodup hu' hu⟩
        have hvne : v ≠ v' := by
          rintro rfl
          obtain rfl := hring (List.mem_of_getElem? hv') (List.mem_of_getElem? hv)
          exact hsame ⟨rfl, CyclicOrder.next_inj hj (List.getElem?_eq_some_iff.mp hu).1
            (CyclicOrder.Follows.index_eq hnodup hv' hv)⟩
        rw [judged_iff] at hjudged
        simpa only [Function.comp_def, if_neg hune, if_neg hvne] using hjudged

theorem judged_refreshExchanges_of_verdict : Judged d.refreshExchanges u v allowed := by
  let start := d.ringNumbers.foldl observeOrder d
  have hstart : Refreshing d start := .observeOrders d
  have hmem : u ∈ (start.ring c).order := hstart.order_eq c ▸ List.mem_of_getElem? hu
  have hc : c ∈ start.ringNumbers := List.mem_range.mpr (lt_size_of_mem_order hmem)
  have hi := (List.getElem?_eq_some_iff.mp hu).1
  change Judged (start.ringNumbers.foldl _ start) u v allowed
  apply foldl_establishes (I := Refreshing d) (P := fun e => Judged e u v allowed) hc
  · intro e he b
    apply List.foldlRecOn
    · exact he
    · exact fun e he i _ => he.refreshPair b i
  · intro e he hjudged b
    have hboth : ∀ slots : List Nat, Refreshing d (slots.foldl (refreshPair b) e) ∧
        Judged (slots.foldl (refreshPair b) e) u v allowed := by
      intro slots
      apply List.foldlRecOn (motive := fun e => Refreshing d e ∧ Judged e u v allowed)
      · exact ⟨he, hjudged⟩
      · exact fun e h j _ => ⟨h.1.refreshPair b j,
          judged_refreshPair_of_judged hd hlong hu hv hverdict h.1 h.2 b j⟩
    exact (hboth _).2
  · intro e he
    apply foldl_establishes (I := Refreshing d) (P := fun e => Judged e u v allowed) (a := i)
    · rwa [List.mem_range, he.order_eq c]
    · exact fun e he j => he.refreshPair c j
    · exact fun e he hjudged j =>
        judged_refreshPair_of_judged hd hlong hu hv hverdict he hjudged c j
    · exact fun e he => judged_refreshPair hd hlong hu hv hverdict he
    · exact he
  · exact hstart

end Refresh

/-! ## Verdicts before and after an exchange -/

theorem turnCount_of_skeleton_eq (hsame : e.skeleton = d.skeleton) (turn : Ordering) :
    e.turnCount c u v turn = d.turnCount c u v turn := by
  apply turnCount_congr
  · exact congrArg Skeleton.linkCount hsame
  · exact congrFun (congrArg Skeleton.link hsame)
  · exact fun b _ => congrArg (fun s => (s.ring b).order) hsame

/-- An exchange is allowed if at least as many facing links cross as do not. -/
theorem judged_refreshExchanges {g : Graph K} {o : Options K} {start : Drawing K}
    (h : build g o = .ok start)
    (hevolves : Skeleton.Evolves (fun c => (start.ring c).order) start.skeleton d.skeleton)
    (hlong : 3 ≤ (d.ring c).order.length) (hu : (d.ring c).order[i]? = some u)
    (hv : (d.ring c).order[CyclicOrder.next (d.ring c).order i]? = some v) :
    Judged d.refreshExchanges u v (decide
      (d.turnCount c u v .gt ≤ d.turnCount c u v .lt + d.turnCount c u v .eq)) := by
  apply judged_refreshExchanges_of_verdict hevolves.sound hlong hu hv
  intro e he
  have hwired := wired_of_evolves h (he.skeleton_eq ▸ hevolves)
  rw [← he.order_eq c] at hu hv
  rw [exchangeUntangles_eq hwired (List.mem_of_getElem? hu) (List.mem_of_getElem? hv) he.observed]
  simp only [turnCount_of_skeleton_eq he.skeleton_eq]

/-- After the exchange of two neighbours, the links that crossed at less than half a turn count
against the opposite exchange. -/
theorem judged_swapWithNext {g : Graph K} {o : Options K} {start : Drawing K}
    (h : build g o = .ok start)
    (hevolves : Skeleton.Evolves (fun c => (start.ring c).order) start.skeleton d.skeleton)
    (hlong : 3 ≤ (d.ring c).order.length) (hu : (d.ring c).order[i]? = some u)
    (hv : (d.ring c).order[CyclicOrder.next (d.ring c).order i]? = some v) :
    Judged (d.swapWithNext c i).refreshExchanges v u (decide
      (d.turnCount c u v .lt ≤ d.turnCount c u v .gt + d.turnCount c u v .eq)) := by
  have htraded := traded_swapWithNext (Nat.le_of_succ_le hlong) hu hv hevolves.sound
  have hswapped := hevolves.trans (Operation.evolves_apply hevolves.sound (.swap c i))
  have hcount : ∀ turn : Ordering,
      (d.swapWithNext c i).turnCount c v u turn.swap = d.turnCount c u v turn := by
    intro turn
    rw [← turnCount_swap d]
    apply turnCount_congr
    · rw [links_swapWithNext]
    · exact fun l => congrArg Link.shape (link_of_links (links_swapWithNext d c i) l)
    · exact fun b hb => congrArg Ring.order (htraded.others_eq b hb)
  obtain ⟨hv', hu'⟩ := htraded.slots hu hv
  rw [← hcount .lt, ← hcount .gt, ← hcount .eq]
  exact judged_refreshExchanges h hswapped (htraded.length_eq.symm ▸ hlong) hv' hu'

/-- The verdicts on the neighbours `u` and `v` at an index of a ring, and on `v` and `u` when they
have been exchanged. -/
structure Weighed (d : Drawing K) (c i u v : Nat) : Prop where
  before : Judged d.refreshExchanges u v (decide
    (d.turnCount c u v .gt ≤ d.turnCount c u v .lt + d.turnCount c u v .eq))
  after : Judged (d.refreshExchanges.swapWithNext c i).refreshExchanges v u (decide
    (d.turnCount c u v .lt ≤ d.turnCount c u v .gt + d.turnCount c u v .eq))
  not_both_refused : ¬(Judged d.refreshExchanges u v false ∧
    Judged (d.refreshExchanges.swapWithNext c i).refreshExchanges v u false)
  /-- What strictly uncrosses links is not undone at once. -/
  not_undone : d.turnCount c u v .gt + d.turnCount c u v .eq < d.turnCount c u v .lt →
    Judged d.refreshExchanges u v true ∧
      Judged (d.refreshExchanges.swapWithNext c i).refreshExchanges v u false

theorem Judged.unique {allowed' : Bool} (h : Judged d u v allowed) (h' : Judged d u v allowed') :
    allowed = allowed' := by
  obtain ⟨s, hs, rfl⟩ := h.swapsNext
  obtain ⟨s', hs', rfl⟩ := h'.swapsNext
  rw [Option.some.inj (hs.symm.trans hs')]

theorem weighed_of_evolves {g : Graph K} {o : Options K} {start : Drawing K}
    (h : build g o = .ok start)
    (hevolves : Skeleton.Evolves (fun c => (start.ring c).order) start.skeleton d.skeleton)
    (hlong : 3 ≤ (d.ring c).order.length) (hu : (d.ring c).order[i]? = some u)
    (hv : (d.ring c).order[CyclicOrder.next (d.ring c).order i]? = some v) :
    Weighed d c i u v := by
  have hbefore := judged_refreshExchanges h hevolves hlong hu hv
  have hafter : Judged (d.refreshExchanges.swapWithNext c i).refreshExchanges v u (decide
      (d.turnCount c u v .lt ≤ d.turnCount c u v .gt + d.turnCount c u v .eq)) := by
    have hsame := d.skeleton_refreshExchanges
    have horder : (d.refreshExchanges.ring c).order = (d.ring c).order :=
      congrArg (fun s => (s.ring c).order) hsame
    simp only [← turnCount_of_skeleton_eq hsame]
    rw [← horder] at hlong hu hv
    exact judged_swapWithNext h (hsame.symm ▸ hevolves) hlong hu hv
  constructor
  case before => exact hbefore
  case after => exact hafter
  case not_both_refused =>
    rintro ⟨hrefused, hrefused'⟩
    have hmore := Nat.lt_of_not_le (of_decide_eq_false (hbefore.unique hrefused))
    have hless := Nat.lt_of_not_le (of_decide_eq_false (hafter.unique hrefused'))
    exact Nat.lt_asymm (Nat.lt_of_le_of_lt (Nat.le_add_right _ _) hmore)
      (Nat.lt_of_le_of_lt (Nat.le_add_right _ _) hless)
  case not_undone =>
    intro hless
    have hlt := Nat.lt_of_le_of_lt (Nat.le_add_right _ _) hless
    rw [decide_eq_true (Nat.le_add_right_of_le (Nat.le_of_lt hlt))] at hbefore
    rw [decide_eq_false (Nat.not_le_of_lt hless)] at hafter
    exact ⟨hbefore, hafter⟩

/-- After any operations on a new drawing, an exchange of two neighbours and the opposite exchange
are weighed by the same links. -/
theorem weighed_run {g : Graph K} {o : Options K} {start : Drawing K}
    (h : build g o = .ok start) (ops : List (Operation K))
    (hd : d.skeleton = (Operation.run ops start).skeleton)
    (hlong : 3 ≤ (d.ring c).order.length) (hu : (d.ring c).order[i]? = some u)
    (hv : (d.ring c).order[CyclicOrder.next (d.ring c).order i]? = some v) :
    Weighed d c i u v := by
  apply weighed_of_evolves h _ hlong hu hv
  rw [hd]
  exact Operation.evolves_run (sound_build h) ops

/-- Two rings of three with two links between them, which cross. -/
def facingRings : Graph Float where
  nodes := [⟨"a", 30, 20, none, none, false⟩, ⟨"b", 30, 20, none, none, false⟩,
    ⟨"c", 30, 20, none, none, false⟩, ⟨"x", 30, 20, none, none, false⟩,
    ⟨"y", 30, 20, none, none, false⟩, ⟨"z", 30, 20, none, none, false⟩]
  edges := [⟨"ax", "a", "x"⟩, ⟨"by", "b", "y"⟩]

def twoTriples : Options Float :=
  { (Options.defaults : Options Float) with
    clustering := .cells [["a", "b", "c"], ["x", "y", "z"]] }

theorem build_facingRings : build facingRings twoTriples =
    .ok (ofClusters facingRings twoTriples [[0, 1, 2], [3, 4, 5]]) := rfl

/-- The first two members of a ring may change places, and then not back. -/
theorem weighed_run_facingRings : ∃ start : Drawing Float,
    build facingRings twoTriples = .ok start ∧
    (start.refreshExchanges.body 0).rules = some (true, true) ∧
    ((start.refreshExchanges.swapWithNext 0 0).refreshExchanges.body 1).rules =
      some (false, true) ∧
    Weighed start 0 0 0 1 :=
  ⟨_, build_facingRings, by decide +kernel, by decide +kernel,
    weighed_run build_facingRings [] rfl (Nat.le_refl 3) rfl rfl⟩

end Drawing

end RingLayout
