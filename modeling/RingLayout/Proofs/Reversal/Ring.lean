import RingLayout.Proofs.Angles
import RingLayout.Proofs.Reversal

/-! # A reversed ring

The reversal of a ring moves its members along it and leaves everything else alone. The far ends of
their links stay where they are, and so does the direction that they are seen from. Hence what the
ring loses by its new order its reverse gains.
-/

namespace RingLayout

variable {K : Type} [Scalar K]

/-! ## Bodies at other places of their ring -/

/-- A body at another place, with another angle and index if it has a seat. -/
def Body.Reseated (b b' : Body K) : Prop :=
  ∃ left top angle index, b' = { b with
    box := { b.box with left := left, top := top }
    role := b.role.mapSeat fun s => { s with angle := angle, index := index } }

namespace Body.Reseated

variable {b b' b'' : Body K}

theorem move (b : Body K) (left top : K) :
    b.Reseated { b with box := { b.box with left := left, top := top } } := by
  obtain ⟨id, group, box, spring, repulsion, gravitation, role⟩ := b
  cases role with
  | seated s => exact ⟨left, top, s.angle, s.index, rfl⟩
  | _ => exact ⟨left, top, 0.0, 0, rfl⟩

theorem refl (b : Body K) : b.Reseated b := move b b.box.left b.box.top

theorem setCenter (b : Body K) (p : Point K) : b.Reseated (b.setCenter p) := move b _ _

omit [Scalar K] in
theorem trans (h : b.Reseated b') (h' : b'.Reseated b'') : b.Reseated b'' := by
  obtain ⟨left, top, angle, index, rfl⟩ := h
  obtain ⟨left', top', angle', index', rfl⟩ := h'
  refine ⟨left', top', angle', index', ?_⟩
  cases hrole : b.role <;> rfl

theorem mapSeat (b : Body K) {f : Seat K → Seat K}
    (hf : ∀ s, ∃ angle index, f s = { s with angle := angle, index := index }) :
    b.Reseated { b with role := b.role.mapSeat f } := by
  obtain ⟨id, group, box, spring, repulsion, gravitation, role⟩ := b
  cases role with
  | seated s =>
      obtain ⟨angle, index, heq⟩ := hf s
      exact ⟨box.left, box.top, angle, index, by rw [Role.mapSeat, heq]; rfl⟩
  | _ => exact ⟨box.left, box.top, 0.0, 0, rfl⟩

end Body.Reseated

namespace Drawing

/-- The second drawing differs from the first in its rings and in the places and seats of some
bodies at most. -/
structure Shuffles (moved : List Nat) (d d' : Drawing K) : Prop where
  body_eq : ∀ v, v ∉ moved → d'.body v = d.body v
  reseated : ∀ v, (d.body v).Reseated (d'.body v)
  bodyCount_eq : d'.bodies.size = d.bodies.size
  rest_eq : d' = { d with bodies := d'.bodies, rings := d'.rings }

namespace Shuffles

variable {moved : List Nat} {d d' d'' : Drawing K}

theorem refl (moved : List Nat) (d : Drawing K) : Shuffles moved d d :=
  ⟨fun _ _ => rfl, fun _ => .refl _, rfl, rfl⟩

theorem trans (h : Shuffles moved d d') (h' : Shuffles moved d' d'') : Shuffles moved d d'' where
  body_eq v hv := (h'.body_eq v hv).trans (h.body_eq v hv)
  reseated v := (h.reseated v).trans (h'.reseated v)
  bodyCount_eq := h'.bodyCount_eq.trans h.bodyCount_eq
  rest_eq := by
    rw [h'.rest_eq, h.rest_eq]

theorem modifyBody (d : Drawing K) {v : Nat} {f : Body K → Body K} (hv : v ∈ moved)
    (hf : ∀ b : Body K, b.Reseated (f b)) : Shuffles moved d (d.modifyBody v f) where
  body_eq u hu := body_modifyBody_of_ne d (fun heq : u = v => hu (heq ▸ hv)) f
  reseated u := by
    by_cases hsize : v < d.bodies.size
    · rw [body_modifyBody d hsize]
      split
      next heq => exact heq ▸ hf _
      next => exact .refl _
    · by_cases hu : u = v
      · subst hu
        rw [body_eq_blank (Nat.le_of_not_lt hsize), body_eq_blank]
        · exact .refl _
        · exact Nat.le_trans (Nat.le_of_eq Array.size_modify) (Nat.le_of_not_lt hsize)
      · rw [body_modifyBody_of_ne d hu]
        exact .refl _
  bodyCount_eq := Array.size_modify
  rest_eq := rfl

theorem modifyRing (d : Drawing K) (c : Nat) (f : Ring K → Ring K) :
    Shuffles moved d (d.modifyRing c f) :=
  ⟨fun _ _ => rfl, fun _ => .refl _, rfl, rfl⟩

/-- A loop over moved bodies shuffles if its steps do. -/
theorem foldl {α : Type} {l : List α} {step : Drawing K → α → Drawing K}
    (hstep : ∀ a ∈ l, ∀ d, Shuffles moved d (step d a)) : Shuffles moved d (l.foldl step d) := by
  induction l generalizing d with
  | nil => exact .refl moved d
  | cons a rest ih =>
      obtain ⟨ha, hrest⟩ := List.forall_mem_cons.mp hstep
      exact (ha d).trans (ih hrest)

/-- Everybody keeps the outer links. -/
theorem outerLinksOf_eq (h : Shuffles moved d d') (v : Nat) :
    d'.outerLinksOf v = d.outerLinksOf v := by
  obtain ⟨left, top, angle, index, heq⟩ := h.reseated v
  rw [outerLinksOf, outerLinksOf, heq]
  unfold Body.seat?
  cases (d.body v).role <;> rfl

theorem link_eq (h : Shuffles moved d d') (e : Nat) : d'.link e = d.link e :=
  link_of_links (congrArg Drawing.links h.rest_eq) e

/-- A hub stays while the members of its ring move. -/
theorem ringCenter_eq {members : Nat → List Nat} {c : Nat} (h : Shuffles (d.ring c).order d d')
    (hd : d.skeleton.Sound members) (hc : c < d.rings.size)
    (hhub : (d'.ring c).hub = (d.ring c).hub) : d'.ringCenter c = d.ringCenter c := by
  rw [ringCenter, ringCenter, hhub, h.body_eq _ (hub_notMem_order hd hc)]

end Shuffles

/-! ## The reversal of a ring -/

/-- The second drawing is the first with a ring in the opposite order. -/
structure Reversed (c : Nat) (mayReverse : Bool) (d d' : Drawing K) : Prop where
  ring_eq : d'.ring c = { d.ring c with
    order := CyclicOrder.reverse (d.ring c).order, mayReverse := mayReverse }
  others_eq : ∀ b, b ≠ c → d'.ring b = d.ring b
  ringCount_eq : d'.rings.size = d.rings.size
  shuffles : Shuffles (d.ring c).order d d'

variable {members : Nat → List Nat} {d d' : Drawing K} {c : Nat} {mayReverse : Bool}

theorem rings_mirrored (d : Drawing K) (c : Nat) : (d.mirrored c).rings =
    (d.modifyRing c fun r => { r with order := CyclicOrder.reverse (d.ring c).order }).rings := by
  let turn : Ring K → Ring K := fun r => { r with order := CyclicOrder.reverse (d.ring c).order }
  refine congrArg (fun rings : Array (Ring K) => rings.modify c turn) ?_
  refine (rings_renumber _ 0 _).trans ?_
  refine foldl_eq_of_step_eq Drawing.rings (fun d v => ?_) _ d
  rfl

theorem shuffles_mirrored (d : Drawing K) (c : Nat) :
    Shuffles (d.ring c).order d (d.mirrored c) := by
  have hmem : ∀ v ∈ CyclicOrder.reverse (d.ring c).order, v ∈ (d.ring c).order := fun v =>
    (CyclicOrder.reverse_perm _).mem_iff.mp
  refine Shuffles.trans (Shuffles.trans (.foldl fun v hv d => ?_) (.foldl fun p hp d => ?_))
    (.modifyRing _ c _)
  · exact .modifyBody d (hmem v hv) fun b => .mapSeat b fun s => ⟨_, s.index, rfl⟩
  · exact .modifyBody d (hmem p.1 (List.fst_mem_of_mem_zipIdx hp)) fun b =>
      .mapSeat b fun s => ⟨s.angle, p.2, rfl⟩

theorem lt_size_of_order (hlong : 3 ≤ (d.ring c).order.length) : c < d.rings.size := by
  obtain ⟨v, hv⟩ := List.exists_mem_of_length_pos (Nat.lt_of_lt_of_le (by decide) hlong)
  exact lt_size_of_mem_order hv

/-- A ring of three or more is reversed in place. -/
theorem reversed_reverseRing (hlong : 3 ≤ (d.ring c).order.length) :
    Reversed c (d.ring c).mayReverse d (d.reverseRing c) := by
  have hsize := lt_size_of_order hlong
  have hrings : ((d.mirrored c).placeMembers c).rings = _ :=
    (rings_placeMembers _ c).trans (d.rings_mirrored c)
  have hring := fun b => (ring_of_rings hrings b).trans (ring_modifyRing d hsize _ b)
  have hself := (hring c).trans (if_pos rfl)
  rw [reverseRing_eq, if_neg (Nat.not_lt.mpr hlong)]
  constructor
  case ring_eq => exact hself
  case others_eq => exact fun b hb => (hring b).trans (if_neg hb)
  case ringCount_eq => exact (congrArg Array.size hrings).trans Array.size_modify
  case shuffles =>
    refine (d.shuffles_mirrored c).trans (.foldl fun v hv d' => ?_)
    rw [← ring_placeMembers, hself] at hv
    refine .modifyBody d' ?_ fun b => .setCenter b _
    exact (CyclicOrder.reverse_perm _).mem_iff.mp hv

/-- A reversed ring may be marked as one that is not reversed again. -/
theorem Reversed.modifyRing (h : Reversed c mayReverse d d') (hc : c < d.rings.size)
    (mayReverse' : Bool) :
    Reversed c mayReverse' d (d'.modifyRing c fun r => { r with mayReverse := mayReverse' }) := by
  have hring := ring_modifyRing d' (h.ringCount_eq ▸ hc) fun r =>
    { r with mayReverse := mayReverse' }
  constructor
  case ring_eq => rw [hring, if_pos rfl, h.ring_eq]
  case others_eq =>
    intro b hb
    rw [hring, if_neg hb, h.others_eq b hb]
  case ringCount_eq => exact Array.size_modify.trans h.ringCount_eq
  case shuffles => exact h.shuffles.trans (.modifyRing d' c _)

/-! ## Tests for reversal -/

theorem mayTestReversal_iff (d : Drawing K) (c : Nat) : d.mayTestReversal c = true ↔
    (d.ring c).mayReverse = true ∧ 3 ≤ (d.ring c).order.length ∧ (d.ring c).order.length ≤ 52 ∧
      2 ≤ (d.ring c).outerLinks.length := by
  simp only [mayTestReversal, Bool.and_eq_true, decide_eq_true_eq, and_assoc]
  rw [Alignment.length_alphabet]

/-- A test either changes nothing or reverses a ring for good. -/
theorem tryReverse_cases (d : Drawing K) (c : Nat) : d.tryReverse c = (false, d) ∨
    d.mayTestReversal c = true ∧ (∃ forward reversed, forward < reversed ∧
      d.alignmentScores? c = some (forward, reversed)) ∧
      d.tryReverse c =
        (true, (d.reverseRing c).modifyRing c fun r => { r with mayReverse := false }) := by
  unfold tryReverse
  split
  next htest =>
    split
    next forward reversed hscores =>
      split
      next hlt => exact Or.inr ⟨htest, ⟨forward, reversed, hlt, hscores⟩, rfl⟩
      next => exact Or.inl rfl
    next => exact Or.inl rfl
  next => exact Or.inl rfl

theorem tryReverse_of_false (h : (d.tryReverse c).1 = false) : (d.tryReverse c).2 = d := by
  rcases d.tryReverse_cases c with heq | ⟨-, -, heq⟩
  · rw [heq]
  · rw [heq] at h
    cases h

theorem tryReverse_fst_iff (d : Drawing K) (c : Nat) : (d.tryReverse c).1 = true ↔
    d.mayTestReversal c = true ∧ ∃ forward reversed, forward < reversed ∧
      d.alignmentScores? c = some (forward, reversed) := by
  constructor
  · intro h
    rcases d.tryReverse_cases c with heq | ⟨htest, hscores, -⟩
    · rw [heq] at h
      cases h
    · exact ⟨htest, hscores⟩
  · rintro ⟨htest, forward, reversed, hlt, hscores⟩
    rw [tryReverse, if_pos htest, hscores]
    dsimp only
    rw [if_pos hlt]

theorem tryReverse_of_true (h : (d.tryReverse c).1 = true) : (d.tryReverse c).2 =
    (d.reverseRing c).modifyRing c fun r => { r with mayReverse := false } := by
  rcases d.tryReverse_cases c with heq | ⟨-, -, heq⟩
  · rw [heq] at h
    cases h
  · rw [heq]

/-- A test that succeeds reverses the ring and marks it. -/
theorem reversed_tryReverse (h : (d.tryReverse c).1 = true) :
    Reversed c false d (d.tryReverse c).2 := by
  obtain ⟨htest, -⟩ := (d.tryReverse_fst_iff c).mp h
  obtain ⟨-, hlong, -, -⟩ := (d.mayTestReversal_iff c).mp htest
  rw [tryReverse_of_true h]
  exact (reversed_reverseRing hlong).modifyRing (lt_size_of_order hlong) false

/-! ## What stays as it was -/

namespace Reversed

variable (h : Reversed c mayReverse d d')
include h

theorem order_eq : (d'.ring c).order = CyclicOrder.reverse (d.ring c).order :=
  congrArg Ring.order h.ring_eq

theorem spokes_eq (order : List Nat) : d'.spokes order = d.spokes order := by
  simp only [spokes, h.shuffles.outerLinksOf_eq]

/-- The ring stays around its center, which is no member. -/
theorem ringCenter_eq (hd : d.skeleton.Sound members) (hc : c < d.rings.size) :
    d'.ringCenter c = d.ringCenter c := by
  apply h.shuffles.ringCenter_eq hd hc
  rw [h.ring_eq]

/-- The far ends of the links are seen in the same directions. -/
theorem bearing_eq (hd : d.skeleton.Sound members) (houtward : d.Outward c)
    (hfirst : d'.angleOf ((d.ring c).order.headD 0) = d.angleOf ((d.ring c).order.headD 0))
    {p : Nat × Nat} (hp : p ∈ d.spokes (d.ring c).order) : d'.bearing c p = d.bearing c p := by
  have hcenter := h.ringCenter_eq hd (lt_size_of_mem_order (mem_spokes.mp hp).1)
  have hhead : (d'.ring c).order.headD 0 = (d.ring c).order.headD 0 := by
    rw [h.order_eq]
    cases (d.ring c).order <;> rfl
  rw [bearing, bearing, h.shuffles.link_eq, h.shuffles.body_eq _ (houtward p hp).2, hcenter, hhead,
    hfirst]

end Reversed

/-! ## Exact arithmetic -/

section Exact

variable {d d' : Drawing ℝ}

theorem comesFirst_iff (d : Drawing ℝ) (c : Nat) (p q : Nat × Nat) : d.comesFirst c p q = true ↔
    toLex (d.bearing c p, p.2) ≤ toLex (d.bearing c q, q.2) := by
  rw [Prod.Lex.toLex_le_toLex]
  unfold comesFirst farEnd FarEnd.le
  dsimp only
  split
  next hlt => exact iff_of_true rfl (Or.inl hlt)
  next hle =>
    split
    next hlt => exact iff_of_false Bool.false_ne_true (by rintro (h | ⟨h, -⟩) <;> linarith)
    next hge =>
      have heq : d.bearing c p = d.bearing c q := le_antisymm (not_lt.mp hge) (not_lt.mp hle)
      simp [heq]

theorem pairwise_spokes (d : Drawing ℝ) (c : Nat) (order : List Nat) :
    ((d.spokes order).mergeSort (d.comesFirst c)).Pairwise fun p q => d.comesFirst c p q := by
  refine List.pairwise_mergeSort (fun p q r hpq hqr => ?_) (fun p q => ?_) _
  · rw [comesFirst_iff] at *
    exact hpq.trans hqr
  · rw [Bool.or_eq_true, comesFirst_iff, comesFirst_iff]
    exact le_total _ _

/-- Spokes can be sorted in one way only, since no two of them have the same link. -/
theorem Outward.eq_of_sorted (h : d.Outward c) {l l' : List (Nat × Nat)}
    (hspokes : l.Perm (d.spokes (d.ring c).order)) (hperm : l.Perm l')
    (hl : l.Pairwise fun p q => d.comesFirst c p q)
    (hl' : l'.Pairwise fun p q => d.comesFirst c p q) : l = l' := by
  refine hperm.eq_of_pairwise (fun p q hp hq hpq hqp => ?_) hl hl'
  rw [comesFirst_iff] at hpq hqp
  have hlink : p.2 = q.2 := congrArg (fun x => (ofLex x).2) (le_antisymm hpq hqp)
  exact h.eq_of_link_eq (hspokes.mem_iff.mp hp) (hspokes.mem_iff.mp (hperm.mem_iff.mpr hq)) hlink

/-- The far ends follow each other as before, and with them the members that they are linked to. -/
theorem Reversed.farMembers_eq (h : Reversed c mayReverse d d') (hd : d.skeleton.Sound members)
    (houtward : d.Outward c)
    (hfirst : d'.angleOf ((d.ring c).order.headD 0) = d.angleOf ((d.ring c).order.headD 0)) :
    d'.farMembers c = d.farMembers c := by
  have hsame : (d'.spokes (d'.ring c).order).Perm (d.spokes (d.ring c).order) := by
    rw [h.order_eq, h.spokes_eq]
    exact (CyclicOrder.reverse_perm _).flatMap_right _
  have hspokes := (List.mergeSort_perm _ (d'.comesFirst c)).trans hsame
  have hbearing := fun p hp => h.bearing_eq hd houtward hfirst (p := p) (hspokes.mem_iff.mp hp)
  refine congrArg (List.map Prod.fst) (houtward.eq_of_sorted hspokes
    (hspokes.trans (List.mergeSort_perm _ (d.comesFirst c)).symm) ?_ (d.pairwise_spokes c _))
  refine (d'.pairwise_spokes c _).imp_of_mem fun hp hq hpq => ?_
  rw [comesFirst_iff] at hpq ⊢
  rwa [hbearing _ hp, hbearing _ hq] at hpq

/-- A reversal exchanges the two scores of a ring. -/
theorem Reversed.exists_scores (h : Reversed c mayReverse d d') (hd : d.skeleton.Sound members)
    (houtward : d.Outward c)
    (hfirst : d'.angleOf ((d.ring c).order.headD 0) = d.angleOf ((d.ring c).order.headD 0))
    (hpos : (d.ring c).order ≠ []) (hlength : (d.ring c).order.length ≤ 52) :
    ∃ forward reversed, d.alignmentScores? c = some (forward, reversed) ∧
      d'.alignmentScores? c = some (reversed, forward) := by
  have hnodup : (d.ring c).order.Nodup := hd.seated.order_nodup c
  have hperm := CyclicOrder.reverse_perm (d.ring c).order
  have hfar := h.farMembers_eq hd houtward hfirst
  refine ⟨_, _, alignmentScores?_eq hnodup hpos hlength, ?_⟩
  rw [alignmentScores?_eq, h.order_eq, CyclicOrder.reverse_reverse, hfar]
  · simp only [nearMembers, h.spokes_eq]
  · rw [h.order_eq]
    exact hperm.nodup_iff.mpr hnodup
  · rw [h.order_eq]
    exact fun hnil => hpos (List.length_eq_zero_iff.mp (hperm.length_eq ▸ congrArg List.length hnil))
  · rw [h.order_eq, hperm.length_eq]
    exact hlength

/-- The first member of a ring stays at its angle when the ring is reversed. -/
theorem angleOf_first_reverseRing (hd : d.skeleton.Sound members)
    (hlong : 3 ≤ (d.ring c).order.length)
    (hangle : d.angleOf ((d.ring c).order.headD 0) ∈ Set.Ico 0 fullTurn) :
    (d.reverseRing c).angleOf ((d.ring c).order.headD 0) =
      d.angleOf ((d.ring c).order.headD 0) := by
  have horder' := (reversed_reverseRing hlong).order_eq
  obtain ⟨first, rest, horder⟩ : ∃ first rest, (d.ring c).order = first :: rest :=
    List.exists_cons_of_length_pos (Nat.lt_of_lt_of_le (by decide) hlong)
  rw [horder] at horder' hangle ⊢
  have hbefore : d.angles c = d.angleOf first :: rest.map d.angleOf := by
    rw [angles, horder, List.map_cons]
  have hafter : (d.reverseRing c).angles c =
      (d.reverseRing c).angleOf first :: rest.reverse.map (d.reverseRing c).angleOf := by
    rw [angles, horder', CyclicOrder.reverse, List.map_cons]
  rw [List.headD_cons] at hangle ⊢
  rcases angles_reverseRing hd c with heq | ⟨a, tail, ha, heq⟩
  · rw [hafter, hbefore] at heq
    exact (List.cons.inj heq).1
  · rw [hbefore] at ha
    obtain ⟨rfl, -⟩ := List.cons.inj ha
    rw [hafter, List.map_cons] at heq
    -- a direction is its own mirror image
    have htwo : (2.0 : ℝ) = 2 := by norm_num
    have hself : 2.0 * d.angleOf first - d.angleOf first = d.angleOf first := by
      rw [htwo, two_mul, add_sub_cancel_right]
    rw [(List.cons.inj heq).1, hself, normalizeAngle_eq_self hangle]

/-- What the reversal of a ring does to its scores, and what a test for reversal does. -/
structure Realigns (d : Drawing ℝ) (c : Nat) : Prop where
  /-- A reversal exchanges the scores. -/
  scores : 3 ≤ (d.ring c).order.length → (d.ring c).order.length ≤ 52 →
    ∃ forward reversed, d.alignmentScores? c = some (forward, reversed) ∧
      (d.reverseRing c).alignmentScores? c = some (reversed, forward)
  /-- So a ring that is reversed aligns better than before, and better than its reverse. -/
  improves : (d.tryReverse c).1 = true → ∃ forward reversed, forward < reversed ∧
    d.alignmentScores? c = some (forward, reversed) ∧
      (d.tryReverse c).2.alignmentScores? c = some (reversed, forward)
  reversed : (d.tryReverse c).1 = true → Reversed c false d (d.tryReverse c).2
  unchanged : (d.tryReverse c).1 = false → (d.tryReverse c).2 = d

/-- Outer links that lead away from a ring, and angles from no turn up to a full one, are all that
it takes. -/
theorem realigns (hd : d.skeleton.Sound members) (houtward : d.Outward c)
    (hangles : ∀ v ∈ (d.ring c).order, d.angleOf v ∈ Set.Ico 0 fullTurn) : Realigns d c := by
  have hswap : ∀ {mayReverse d'}, 3 ≤ (d.ring c).order.length →
      (d.ring c).order.length ≤ 52 → Reversed c mayReverse d d' →
      d'.bodies = (d.reverseRing c).bodies →
      ∃ forward reversed, d.alignmentScores? c = some (forward, reversed) ∧
        d'.alignmentScores? c = some (reversed, forward) := by
    intro mayReverse d' hlong hlength h hbodies
    have hpos : (d.ring c).order ≠ [] := by
      rintro hnil
      simp [hnil] at hlong
    have hfirst : (d.ring c).order.headD 0 ∈ (d.ring c).order := by
      obtain ⟨first, rest, horder⟩ := List.exists_cons_of_ne_nil hpos
      rw [horder]
      exact List.mem_cons_self
    refine h.exists_scores hd houtward ?_ hpos hlength
    rw [← angleOf_first_reverseRing hd hlong (hangles _ hfirst)]
    simp only [angleOf, seatOf, body, hbodies]
  constructor
  case scores =>
    exact fun hlong hlength => hswap hlong hlength (reversed_reverseRing hlong) rfl
  case improves =>
    intro htrue
    obtain ⟨htest, forward, reversed, hlt, hscores⟩ := (d.tryReverse_fst_iff c).mp htrue
    obtain ⟨-, hlong, hlength, -⟩ := (d.mayTestReversal_iff c).mp htest
    have hbodies := congrArg Drawing.bodies (tryReverse_of_true htrue)
    obtain ⟨forward', reversed', hscores', hafter⟩ :=
      hswap hlong hlength (reversed_tryReverse htrue) hbodies
    rw [hscores, Option.some.injEq, Prod.mk.injEq] at hscores'
    obtain ⟨rfl, rfl⟩ := hscores'
    exact ⟨forward, reversed, hlt, hscores, hafter⟩
  case reversed => exact reversed_tryReverse
  case unchanged => exact tryReverse_of_false

end Exact

end Drawing

end RingLayout
