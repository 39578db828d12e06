import Mathlib.Data.Prod.Lex
import RingLayout.Proofs.Angles.Members
import RingLayout.Proofs.AsBuilt
import RingLayout.Proofs.Seating.Operations

/-! # Reversal

A ring and its reverse are aligned with the far ends of the outer links, all three read as words
over letters that number the members. Letters only tell members apart, and the order of the far
ends depends on where the links end. So the reversal of a ring exchanges its two scores.
-/

namespace RingLayout

/-! ## Words over other letters -/

namespace Alignment

variable {α β : Type} [BEq α] [BEq β] {f : α → β}

theorem nextEntries_map {x : α} {ys : List α} (h : ∀ y ∈ ys, (f x == f y) = (x == y))
    (left corner : Int) (above : List Int) :
    nextEntries (f x) left corner (ys.map f) above = nextEntries x left corner ys above := by
  induction ys generalizing left corner above with
  | nil => rfl
  | cons y ys ih =>
      obtain ⟨hy, hys⟩ := List.forall_mem_cons.mp h
      cases above with
      | nil => rfl
      | cons up above => simp only [List.map_cons, nextEntries, pairScore, hy, ih hys]

theorem nextRow_map {x : α} {ys : List α} (h : ∀ y ∈ ys, (f x == f y) = (x == y))
    (row : List Int) : nextRow (ys.map f) row (f x) = nextRow ys row x := by
  cases row with
  | nil => rfl
  | cons corner above => simp only [nextRow, nextEntries_map h]

/-- The score of an alignment does not depend on what the symbols are. -/
theorem score_map {xs ys : List α} (h : ∀ x ∈ xs, ∀ y ∈ ys, (f x == f y) = (x == y)) :
    score (xs.map f) (ys.map f) = score xs ys := by
  have hfirst : firstRow (ys.map f) = firstRow ys := by rw [firstRow, firstRow, List.length_map]
  rw [score, score, hfirst, List.foldl_map,
    List.foldl_ext _ _ _ fun row x hx => nextRow_map (h x hx) row]

theorem length_alphabet : alphabet.length = 52 := rfl

theorem alphabet_nodup : alphabet.Nodup := by decide

end Alignment

namespace Drawing

/-! ## Letters of members -/

/-- The letter of a member of an order. -/
def letterIn (order : List Nat) (v : Nat) : Char := Alignment.alphabet.getD (order.idxOf v) 'a'

variable {order : List Nat}

theorem lettered_eq (hnodup : order.Nodup) (hlength : order.length ≤ Alignment.alphabet.length) :
    lettered order = order.map fun v => (v, letterIn order v) := by
  refine List.ext_getElem ?_ fun i hi hi' => ?_
  · rw [lettered, List.length_zip, List.length_map, Nat.min_eq_left hlength]
  · rw [List.length_map] at hi'
    have hletter : i < Alignment.alphabet.length := Nat.lt_of_lt_of_le hi' hlength
    simp only [lettered, List.getElem_zip, List.getElem_map, letterIn,
      hnodup.idxOf_getElem i hi', List.getD_eq_getElem?_getD, List.getElem?_eq_getElem hletter,
      Option.getD_some]

/-- Distinct members have distinct letters. -/
theorem letterIn_inj (hlength : order.length ≤ Alignment.alphabet.length) {u v : Nat}
    (hu : u ∈ order) (hv : v ∈ order) : letterIn order u = letterIn order v ↔ u = v := by
  refine ⟨fun heq => ?_, fun heq => heq ▸ rfl⟩
  have hindex : ∀ {w}, w ∈ order → order.idxOf w < Alignment.alphabet.length := fun hw =>
    Nat.lt_of_lt_of_le (List.idxOf_lt_length_iff.mpr hw) hlength
  rw [letterIn, letterIn, List.getD_eq_getElem?_getD, List.getD_eq_getElem?_getD,
    List.getElem?_eq_getElem (hindex hu), List.getElem?_eq_getElem (hindex hv), Option.getD_some,
    Option.getD_some, Alignment.alphabet_nodup.getElem_inj_iff] at heq
  exact (List.idxOf_inj hu).mp heq

/-! ## Spokes -/

variable {K : Type} [Scalar K] {d d' : Drawing K} {c : Nat}

/-- The outer links of members in turn, each with its member. -/
def spokes (d : Drawing K) (order : List Nat) : List (Nat × Nat) :=
  order.flatMap fun v => (d.outerLinksOf v).map fun e => (v, e)

theorem mem_spokes {p : Nat × Nat} :
    p ∈ d.spokes order ↔ p.1 ∈ order ∧ p.2 ∈ d.outerLinksOf p.1 := by
  simp only [spokes, List.mem_flatMap, List.mem_map]
  constructor
  · rintro ⟨v, hv, e, he, rfl⟩
    exact ⟨hv, he⟩
  · rintro ⟨hv, he⟩
    exact ⟨p.1, hv, p.2, he, rfl⟩

/-- The direction of the far end of a spoke, measured from the first member of a ring. -/
def bearing (d : Drawing K) (c : Nat) (p : Nat × Nat) : K :=
  let offset := (d.body ((d.link p.2).other p.1)).center.sub (d.ringCenter c)
  normalizeAngle (Scalar.atan2 offset.y offset.x - d.angleOf ((d.ring c).order.headD 0))

/-- The far end of a spoke, with any letter for its member. -/
def farEnd (d : Drawing K) (c : Nat) (letter : Char) (p : Nat × Nat) : FarEnd K :=
  ⟨d.bearing c p, p.2, letter⟩

/-- Whether the far end of a spoke comes before that of another one. -/
def comesFirst (d : Drawing K) (c : Nat) (p q : Nat × Nat) : Bool :=
  (d.farEnd c 'a' p).le (d.farEnd c 'a' q)

/-- The members of a ring as the far ends of their links follow each other. -/
def farMembers (d : Drawing K) (c : Nat) : List Nat :=
  ((d.spokes (d.ring c).order).mergeSort (d.comesFirst c)).map Prod.fst

/-- The members of an order, each once for every outer link. -/
def nearMembers (d : Drawing K) (order : List Nat) : List Nat := (d.spokes order).map Prod.fst

theorem word_eq (d : Drawing K) (order : List Nat) (letter : Nat → Char) :
    d.word (order.map fun v => (v, letter v)) = (d.nearMembers order).map letter := by
  rw [word, nearMembers, spokes, List.flatMap_map, List.map_flatMap, List.map_flatMap]
  refine List.flatMap_congr fun v _ => ?_
  simp [Function.comp_def]

theorem farWord_eq (d : Drawing K) (c : Nat) (letter : Nat → Char) :
    d.farWord c ((d.ring c).order.map fun v => (v, letter v)) = (d.farMembers c).map letter := by
  have hends : d.farEnds (d.ringCenter c) (d.angleOf ((d.ring c).order.headD 0))
      ((d.ring c).order.map fun v => (v, letter v)) =
      (d.spokes (d.ring c).order).map fun p => d.farEnd c (letter p.1) p := by
    rw [farEnds, spokes, List.flatMap_map, List.map_flatMap]
    refine List.flatMap_congr fun v _ => ?_
    rw [List.map_map]
    rfl
  have hsort : ((d.spokes (d.ring c).order).map fun p => d.farEnd c (letter p.1) p).mergeSort
      FarEnd.le = ((d.spokes (d.ring c).order).mergeSort (d.comesFirst c)).map fun p =>
        d.farEnd c (letter p.1) p := by
    refine (List.map_mergeSort fun p _ q _ => ?_).symm
    rfl
  rw [farWord, farMembers, hends, hsort, List.map_map, List.map_map]
  rfl

/-- The scores of a ring, with the members themselves for letters. -/
theorem alignmentScores?_eq (hnodup : (d.ring c).order.Nodup) (hpos : (d.ring c).order ≠ [])
    (hlength : (d.ring c).order.length ≤ 52) : d.alignmentScores? c =
      some (Alignment.score (d.nearMembers (d.ring c).order) (d.farMembers c),
        Alignment.score (d.nearMembers (CyclicOrder.reverse (d.ring c).order))
          (d.farMembers c)) := by
  let letter := letterIn (d.ring c).order
  let labelled : List Nat → List (Nat × Char) := List.map fun v => (v, letter v)
  obtain ⟨first, rest, horder⟩ := List.exists_cons_of_ne_nil hpos
  have hmembers : lettered (d.ring c).order = labelled (d.ring c).order :=
    lettered_eq hnodup hlength
  have hforward : labelled (d.ring c).order = (first, letter first) :: labelled rest := by
    rw [horder]
    rfl
  have hbackward : (first, letter first) :: (labelled rest).reverse =
      labelled (CyclicOrder.reverse (d.ring c).order) := by
    rw [horder]
    exact congrArg _ List.map_reverse.symm
  have hnear : ∀ {order}, (∀ v ∈ order, v ∈ (d.ring c).order) →
      ∀ v ∈ d.nearMembers order, v ∈ (d.ring c).order := by
    intro order horder v hv
    obtain ⟨p, hp, rfl⟩ := List.mem_map.mp hv
    exact horder _ (mem_spokes.mp hp).1
  have hfar : ∀ v ∈ d.farMembers c, v ∈ (d.ring c).order := by
    intro v hv
    obtain ⟨p, hp, rfl⟩ := List.mem_map.mp hv
    exact (mem_spokes.mp (List.mem_mergeSort.mp hp)).1
  have hscore : ∀ order, (∀ v ∈ order, v ∈ (d.ring c).order) →
      Alignment.score ((d.nearMembers order).map letter) ((d.farMembers c).map letter) =
        Alignment.score (d.nearMembers order) (d.farMembers c) := by
    intro order horder
    refine Alignment.score_map fun u hu v hv => ?_
    rw [Bool.eq_iff_iff, beq_iff_eq, beq_iff_eq]
    exact letterIn_inj hlength (hnear horder u hu) (hfar v hv)
  have hread : ¬((d.ring c).order.isEmpty ||
      decide (Alignment.alphabet.length < (d.ring c).order.length)) := by
    rw [Bool.or_eq_true, not_or, List.isEmpty_iff, decide_eq_true_eq, Alignment.length_alphabet]
    exact ⟨hpos, Nat.not_lt.mpr hlength⟩
  unfold alignmentScores?
  dsimp only
  rw [if_neg hread, hmembers, hforward]
  dsimp only
  rw [hbackward, ← hforward, word_eq, word_eq, farWord_eq, hscore _ fun _ => id,
    hscore _ fun v => (CyclicOrder.reverse_perm _).mem_iff.mp]

/-! ## Outward links -/

/-- The outer links of the members of a ring lead away from it. -/
def Outward (d : Drawing K) (c : Nat) : Prop :=
  ∀ p ∈ d.spokes (d.ring c).order,
    (d.link p.2).Touches p.1 ∧ (d.link p.2).other p.1 ∉ (d.ring c).order

/-- So an outer link belongs to one member. -/
theorem Outward.eq_of_link_eq (h : d.Outward c) {p q : Nat × Nat}
    (hp : p ∈ d.spokes (d.ring c).order) (hq : q ∈ d.spokes (d.ring c).order)
    (hlink : p.2 = q.2) : p = q := by
  obtain ⟨htouches, hother⟩ := h p hp
  have htouches' := hlink ▸ (h q hq).1
  refine Prod.ext ?_ hlink
  by_contra hne
  have hfar : (d.link p.2).other p.1 = q.1 := by
    unfold Link.other
    rcases htouches with hsource | htarget
    · rcases htouches' with hsource' | htarget'
      · exact absurd (hsource.symm.trans hsource') hne
      · rw [if_pos hsource, htarget']
    · rcases htouches' with hsource' | htarget'
      · rw [if_neg fun hsource => hne (hsource.symm.trans hsource'), hsource']
      · exact absurd (htarget.symm.trans htarget') hne
  rw [hfar] at hother
  exact hother (mem_spokes.mp hq).1

/-- In whatever has become of a new drawing outer links lead away from their rings. -/
theorem outward_of_evolves {g : Graph K} {o : Options K} {start : Drawing K}
    (h : build g o = .ok start)
    (hevolves : Skeleton.Evolves (fun c => (start.ring c).order) start.skeleton d.skeleton)
    (c : Nat) : d.Outward c := by
  obtain ⟨cs, -, hviews⟩ := linkViews_build h
  rintro ⟨v, e⟩ hp
  obtain ⟨hv, he⟩ := mem_spokes.mp hp
  dsimp only at hv he ⊢
  have hmember : ∀ u ∈ (d.ring c).order, u ∈ (start.ring c).order := fun u hu =>
    (hevolves.sound.seated.members_perm c).mem_iff.mp (List.mem_append_left _ hu)
  -- the link is an outer one of the seat that the member was built with
  obtain ⟨s, hs, houter⟩ : ∃ s, (start.body v).seat? = some s ∧ e ∈ s.outerLinks := by
    unfold outerLinksOf at he
    split at he
    next s hs =>
      obtain ⟨s', hs', -, houter⟩ := seat_links_of_evolves hevolves hs
      exact ⟨s', hs', houter ▸ he⟩
    next => cases he
  obtain ⟨l, hl, htouches, hinner⟩ := ((hviews.seat_outerLinks v s hs).mem_iff e).mp houter
  have hlink : (d.link e).shape = l.shape := by
    have hplan := congrFun (congrArg Plan.link hevolves.plan_eq) e
    have hstart : start.link e = l := by
      rw [link, Array.getD_eq_getD_getElem?, hl, Option.getD_some]
    exact hstart ▸ hplan
  have hsource : (d.link e).source = l.source := congrArg LinkShape.source hlink
  have htarget : (d.link e).target = l.target := congrArg LinkShape.target hlink
  refine ⟨by rwa [Link.Touches, hsource, htarget], fun hother => ?_⟩
  -- with its far end on the ring it would be an inner link
  have hring : l.ring = some c := by
    refine (hviews.ring_eq_iff l (Array.mem_of_getElem? hl) c).mpr ?_
    have hnear := hmember v hv
    have hfar := hmember _ hother
    rw [Link.other, hsource, htarget] at hfar
    split at hfar
    next heq => exact ⟨heq ▸ hnear, hfar⟩
    next hne => exact ⟨hfar, htouches.resolve_left hne ▸ hnear⟩
  rw [Link.isInner, hring] at hinner
  cases hinner

end Drawing

end RingLayout
