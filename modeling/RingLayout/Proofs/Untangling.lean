import RingLayout.Drawing.Reversal
import RingLayout.Proofs.Crossings
import RingLayout.Proofs.Exchanges
import RingLayout.Proofs.Seating.Rings
import RingLayout.Proofs.Wiring

/-! # Untangling

In a seated skeleton the chords of a ring are a matter of its links and its order. Reversing a
ring keeps the number of crossing chords, an exchange that would raise it is taken back, and a
member that goes inside takes its chords along. So the rules that change orders in a simulation
never raise the number for any ring.
-/

open scoped List

namespace RingLayout

namespace Skeleton

/-- The chords of a ring, by the seats of their ends. -/
def chords (s : Skeleton) (c : Nat) : List Chord :=
  (s.ring c).innerLinks.filterMap fun e =>
    match (s.place (s.link e).source).seat?, (s.place (s.link e).target).seat? with
    | some a, some b => some (a.2, b.2)
    | _, _ => none

/-- The number of crossing chords of a ring. -/
def crossings (s : Skeleton) (c : Nat) : Nat := Chord.crossings (s.chords c)

/-- The chord of a link, by the positions of its ends in an order. -/
def chordIn? (order : List Nat) (l : LinkShape) : Option Chord :=
  match order.idxOf? l.source, order.idxOf? l.target with
  | some a, some b => some (a, b)
  | _, _ => none

/-- The chords that links have in an order. -/
def chordsIn (order : List Nat) (links : List LinkShape) : List Chord :=
  links.filterMap (chordIn? order)

theorem chordIn?_lt {order : List Nat} {l : LinkShape} {p : Chord}
    (hp : chordIn? order l = some p) : p.1 < order.length ∧ p.2 < order.length := by
  unfold chordIn? at hp
  split at hp
  next a b ha hb =>
    cases hp
    obtain ⟨ha, -⟩ := List.idxOf?_eq_some_iff.mp ha
    obtain ⟨hb, -⟩ := List.idxOf?_eq_some_iff.mp hb
    exact ⟨ha, hb⟩
  next => cases hp

/-- Reversing an order mirrors its chords. -/
theorem chordsIn_reverse {order : List Nat} (horder : order.Nodup) (links : List LinkShape) :
    chordsIn (CyclicOrder.reverse order) links =
      (chordsIn order links).map (Chord.map (CyclicOrder.mirror order.length)) := by
  rw [chordsIn, chordsIn, List.map_filterMap]
  congr 1
  funext l
  simp only [chordIn?, CyclicOrder.idxOf?_reverse horder]
  cases order.idxOf? l.source <;> cases order.idxOf? l.target <;> rfl

theorem crossings_chordsIn_reverse {order : List Nat} (horder : order.Nodup)
    (links : List LinkShape) :
    Chord.crossings (chordsIn (CyclicOrder.reverse order) links) =
      Chord.crossings (chordsIn order links) := by
  have hlt : ∀ p ∈ chordsIn order links, p.1 < order.length ∧ p.2 < order.length := by
    intro p hp
    obtain ⟨l, -, hl⟩ := List.mem_filterMap.mp hp
    exact chordIn?_lt hl
  rw [chordsIn_reverse horder]
  exact Chord.crossings_map fun p hp q hq => Chord.crosses_mirror (hlt p hp) (hlt q hq)

/-- Taking a member out of an order leaves the chords that do not end at it. -/
theorem chordsIn_eraseIdx {order : List Nat} (horder : order.Nodup) (i : Nat)
    (links : List LinkShape) :
    chordsIn (order.eraseIdx i) links =
      ((chordsIn order links).filter fun p => p.1 ≠ i ∧ p.2 ≠ i).map
        (Chord.map (CyclicOrder.closeUp i)) := by
  rw [chordsIn, chordsIn, List.filter_filterMap, List.map_filterMap]
  congr 1
  funext l
  simp only [chordIn?, CyclicOrder.idxOf?_eraseIdx horder]
  cases order.idxOf? l.source with
  | none => rfl
  | some a =>
      cases order.idxOf? l.target with
      | none => by_cases ha : a = i <;> simp [ha]
      | some b =>
          by_cases ha : a = i <;> by_cases hb : b = i <;>
            simp [ha, hb, Option.filter_some, Chord.map]

/-- What is left are the crossings of these chords. -/
theorem crossings_chordsIn_eraseIdx {order : List Nat} (horder : order.Nodup) (i : Nat)
    (links : List LinkShape) : Chord.crossings (chordsIn (order.eraseIdx i) links) =
      Chord.crossings ((chordsIn order links).filter fun p => p.1 ≠ i ∧ p.2 ≠ i) := by
  have hends : ∀ p ∈ (chordsIn order links).filter fun p => p.1 ≠ i ∧ p.2 ≠ i,
      p.1 ≠ i ∧ p.2 ≠ i := fun p hp => of_decide_eq_true (List.mem_filter.mp hp).2
  rw [chordsIn_eraseIdx horder,
    Chord.crossings_map fun p hp q hq => Chord.crosses_closeUp (hends p hp) (hends q hq)]

theorem crossings_chordsIn_eraseIdx_le {order : List Nat} (horder : order.Nodup) (i : Nat)
    (links : List LinkShape) :
    Chord.crossings (chordsIn (order.eraseIdx i) links) ≤
      Chord.crossings (chordsIn order links) := by
  rw [crossings_chordsIn_eraseIdx horder]
  exact Chord.crossings_sublist List.filter_sublist

variable {members : Nat → List Nat} {s : Skeleton}

/-- In a seated skeleton the seats of members are their positions in the order. -/
theorem Seated.chords_eq (h : s.Seated members) (c : Nat) :
    s.chords c = chordsIn (s.ring c).order ((s.ring c).innerLinks.map s.link) := by
  have hseat : ∀ v ∈ members c,
      ((s.place v).seat?).map Prod.snd = (s.ring c).order.idxOf? v := by
    intro v hv
    rcases List.mem_append.mp ((h.members_perm c).mem_iff.mpr hv) with horder | hinside
    · rw [h.seat?_of_mem horder]
      exact ((CyclicOrder.idxOf?_eq_iff (h.order_nodup c)).mpr (List.getElem?_idxOf horder)).symm
    -- a member that is inside has neither a seat nor a position
    · have hnot : v ∉ (s.ring c).order := fun horder =>
        (List.nodup_append.mp (h.order_append_nodup c)).2.2 v horder v hinside rfl
      rw [(h.inside_iff v c).mpr hinside, List.idxOf?_eq_none_iff.mpr hnot]
      rfl
  rw [chords, chordsIn, List.filterMap_map]
  refine List.filterMap_congr fun e he => ?_
  obtain ⟨hsource, htarget⟩ := h.ends_mem c e he
  rw [Function.comp_apply, chordIn?, ← hseat _ hsource, ← hseat _ htarget]
  cases (s.place (s.link e).source).seat? <;> cases (s.place (s.link e).target).seat? <;> rfl

theorem Seated.crossings_eq (h : s.Seated members) (c : Nat) :
    s.crossings c =
      Chord.crossings (chordsIn (s.ring c).order ((s.ring c).innerLinks.map s.link)) := by
  rw [crossings, h.chords_eq]

/-- Another order of a ring changes the crossings of this ring only. -/
theorem Seated.crossings_reorder (h : s.Seated members) {c : Nat} {order : List Nat}
    (hperm : order.Perm (s.ring c).order) (b : Nat) :
    (s.reorder c order).crossings b =
      if b = c then Chord.crossings (chordsIn order ((s.ring c).innerLinks.map s.link))
      else s.crossings b := by
  have hlink : (s.reorder c order).link = s.link := by rw [reorder_eq]
  rw [(h.reorder hperm).crossings_eq, h.crossings_eq, ring_reorder, hlink]
  split
  · rfl
  · rfl

/-- Reversing a ring keeps the crossings of all rings. -/
theorem Seated.crossings_reverse (h : s.Seated members) (c : Nat) :
    (s.reorder c (CyclicOrder.reverse (s.ring c).order)).crossings = s.crossings := by
  funext b
  rw [h.crossings_reorder (CyclicOrder.reverse_perm _)]
  split
  next hb =>
    subst hb
    rw [crossings_chordsIn_reverse (h.order_nodup b), h.crossings_eq]
  next => rfl

/-- A member that goes inside changes the crossings of its ring only. -/
theorem Seated.crossings_takeInside (h : s.Seated members) {c i v : Nat}
    (hv : (s.ring c).order[i]? = some v) (b : Nat) :
    (s.takeInside c i v).crossings b =
      if b = c then
        Chord.crossings (chordsIn ((s.ring c).order.eraseIdx i) ((s.ring c).innerLinks.map s.link))
      else s.crossings b := by
  have hlink : (s.takeInside c i v).link = s.link := by rw [takeInside_eq]
  rw [(h.takeInside hv).crossings_eq, h.crossings_eq, ring_takeInside, hlink]
  split
  · rfl
  · rfl

/-- With a member taken inside, no ring has more crossings. -/
theorem Seated.crossings_takeInside_le (h : s.Seated members) {c i v : Nat}
    (hv : (s.ring c).order[i]? = some v) (b : Nat) :
    (s.takeInside c i v).crossings b ≤ s.crossings b := by
  rw [h.crossings_takeInside hv]
  split
  next hb =>
    rw [hb, h.crossings_eq]
    exact crossings_chordsIn_eraseIdx_le (h.order_nodup c) i _
  next => exact Nat.le_refl _

/-- The second skeleton is seated, has the wiring of the first and no more crossings than it on
any ring. -/
structure Untangles (members : Nat → List Nat) (s t : Skeleton) : Prop
    extends Reseats members s t where
  crossings_le : ∀ c, t.crossings c ≤ s.crossings c

namespace Untangles

theorem refl (h : s.Seated members) : Untangles members s s :=
  ⟨.refl h, fun _ => Nat.le_refl _⟩

theorem trans {t u : Skeleton} (hst : Untangles members s t) (htu : Untangles members t u) :
    Untangles members s u :=
  ⟨hst.toReseats.trans htu.toReseats,
    fun c => Nat.le_trans (htu.crossings_le c) (hst.crossings_le c)⟩

/-- What every step of a loop untangles, the loop untangles. -/
theorem foldl {σ α : Type} (view : σ → Skeleton) {step : σ → α → σ}
    (hstep : ∀ state a, (view state).Seated members →
      Untangles members (view state) (view (step state a)))
    (l : List α) (state : σ) (h : (view state).Seated members) :
    Untangles members (view state) (view (l.foldl step state)) := by
  induction l generalizing state with
  | nil => exact refl h
  | cons a l ih =>
      have hfirst := hstep state a h
      exact hfirst.trans (ih _ hfirst.seated)

end Untangles

end Skeleton

namespace Drawing

variable {K : Type} [Scalar K] {members : Nat → List Nat} {d d' : Drawing K}

theorem chords_skeleton (d : Drawing K) (c : Nat) : d.skeleton.chords c = d.chords c := by
  rw [chords, Skeleton.chords]
  congr 1
  funext e
  dsimp only
  have hseat : ∀ v, (d.skeleton.place v).seat? =
      (d.body v).seat?.map fun s => (s.ring, s.index) := fun v => Role.seat?_place _
  have hsource : (d.skeleton.link e).source = (d.link e).source := rfl
  have htarget : (d.skeleton.link e).target = (d.link e).target := rfl
  rw [hseat, hseat, hsource, htarget]
  cases (d.body (d.link e).source).seat? <;> cases (d.body (d.link e).target).seat? <;> rfl

theorem crossingCount_eq (d : Drawing K) (c : Nat) :
    d.crossingCount c = d.skeleton.crossings c := by
  rw [crossingCount, Skeleton.crossings, chords_skeleton]

open Skeleton (Reseats Untangles)

/-! ## Exchange -/

theorem untangles_swapWithNext (h : d.skeleton.Seated members) {c i : Nat}
    (hcrossings : (d.swapWithNext c i).crossingCount c ≤ d.crossingCount c) :
    Untangles members d.skeleton (d.swapWithNext c i).skeleton := by
  have hperm := CyclicOrder.exchange_perm (d.ring c).order i (CyclicOrder.next (d.ring c).order i)
  have hswap := skeleton_swapWithNext h c i
  refine ⟨hswap ▸ h.reseats_reorder hperm, fun b => ?_⟩
  by_cases hb : b = c
  · rw [hb, ← crossingCount_eq, ← crossingCount_eq]
    exact hcrossings
  -- the exchange compares this ring only; the chords of the others stay as they are
  · have hother := h.crossings_reorder hperm b
    rw [if_neg hb] at hother
    exact Nat.le_of_eq ((congrArg (Skeleton.crossings · b) hswap).trans hother)

/-- An exchange is carried out if it raises no crossings, and taken back otherwise. -/
theorem Exchanges.untangles {held pairs : List (Nat × Nat)}
    (h : Exchanges held d pairs d') (hd : d.skeleton.Seated members) :
    Untangles members d.skeleton d'.skeleton := by
  induction h with
  | done => exact .refl hd
  | exchange _ _ _ hcrossings _ ih =>
      have hswap := untangles_swapWithNext hd hcrossings
      exact hswap.trans (ih hswap.seated)
  | takeBack _ _ _ _ _ ih =>
      rw [skeleton_swapWithNext_swapWithNext hd] at ih
      exact ih hd

/-- A round of exchanges raises the crossings of no ring. -/
theorem untangles_performExchanges (h : d.skeleton.Seated members) (m : ExchangeMemory) :
    Untangles members d.skeleton (d.performExchanges m).2.1.skeleton := by
  obtain ⟨d', hexchanges, heq⟩ := d.exists_exchanges m
  rw [heq, clearPulls, skeleton_clearPulls]
  exact hexchanges.untangles h

/-! ## Relocation -/

theorem untangles_moveInside (h : d.skeleton.Seated members) (c v : Nat) :
    Untangles members d.skeleton (d.moveInside c v).skeleton := by
  cases hv : (d.ring c).order.idxOf? v with
  | none =>
      have hsame : d.moveInside c v = d := by
        unfold moveInside
        dsimp only
        rw [hv]
      rw [hsame]
      exact .refl h
  | some i =>
      have hget := (CyclicOrder.idxOf?_eq_iff (h.order_nodup c)).mp hv
      rw [skeleton_moveInside h hv]
      exact ⟨h.reseats_takeInside hget, h.crossings_takeInside_le hget⟩

theorem untangles_moveMembersInside (c budget : Nat) (d : Drawing K)
    (h : d.skeleton.Seated members) :
    Untangles members d.skeleton (moveMembersInside c budget d).2.skeleton := by
  induction budget generalizing d with
  | zero => exact .refl h
  | succ budget ih =>
      rw [moveMembersInside]
      split
      · split
        · exact .refl h
        next v _ =>
          have hmove := untangles_moveInside h c v
          rw [← (d.moveInside c v).skeleton_setCenter v (d.insideTarget c v)] at hmove
          exact hmove.trans (ih _ hmove.seated)
      · exact .refl h

/-- A ring is laid out anew without a change to its skeleton. -/
theorem skeleton_relocateOnRing {state : Nat × Drawing K} (h : state.2.skeleton.Seated members)
    (share separation : K) (c : Nat) :
    (relocateOnRing share separation state c).2.skeleton = (moveMembersInside c
      (Scalar.floorNat (((state.2.ring c).order.length : K) * share)) state.2).2.skeleton := by
  have hmove := untangles_moveMembersInside c
    (Scalar.floorNat (((state.2.ring c).order.length : K) * share)) state.2 h
  unfold relocateOnRing
  dsimp only
  split
  · rfl
  · rw [foldl_eq_of_step_eq skeleton fun d v => d.skeleton_keepInside v _ _,
      skeleton_spread hmove.seated]

theorem untangles_relocateOnRing (share separation : K) (state : Nat × Drawing K) (c : Nat)
    (h : state.2.skeleton.Seated members) :
    Untangles members state.2.skeleton (relocateOnRing share separation state c).2.skeleton := by
  rw [skeleton_relocateOnRing h]
  exact untangles_moveMembersInside c _ state.2 h

/-- Moving members inside raises the crossings of no ring. -/
theorem untangles_relocateInside (h : d.skeleton.Seated members) (share separation : K) :
    Untangles members d.skeleton (d.relocateInside share separation).2.skeleton :=
  Untangles.foldl (fun state : Nat × Drawing K => state.2.skeleton)
    (untangles_relocateOnRing share separation) d.ringNumbers (0, d) h

/-! ### Who goes inside -/

omit [Scalar K] in
/-- Roles that stand for the same part have seats with the same index and the same links. -/
theorem seats_of_place_eq {r r' : Role K} (h : r'.place = r.place) :
    (r.seat? = none ∧ r'.seat? = none) ∨ ∃ s s', r.seat? = some s ∧ r'.seat? = some s' ∧
      s'.index = s.index ∧ s'.innerLinks = s.innerLinks ∧ s'.outerLinks = s.outerLinks := by
  cases r with
  | seated s =>
      cases r' with
      | seated s' =>
          obtain ⟨-, hindex, hinner, houter⟩ := Place.seated.inj h
          exact Or.inr ⟨s, s', rfl, rfl, hindex, hinner, houter⟩
      | _ => cases h
  | _ =>
      cases r' with
      | seated s' => cases h
      | _ => exact Or.inl ⟨rfl, rfl⟩

/-- Who may move inside can be told from the skeleton. -/
theorem canMoveInside_congr (h : d'.skeleton = d.skeleton) (c : Nat) (chords : List Chord)
    (v : Nat) : d'.canMoveInside c chords v = d.canMoveInside c chords v := by
  have hseats := fun u => seats_of_place_eq (congrArg (fun s => s.place u) h)
  have hseated : ∀ u, (d'.body u).isSeated = (d.body u).isSeated := by
    intro u
    rw [Body.isSeated, Body.isSeated]
    rcases hseats u with ⟨hnone, hnone'⟩ | ⟨s, s', hs, hs', -⟩
    · rw [hnone, hnone']
    · rw [hs, hs']
      rfl
  have hother : ∀ e u, (d'.link e).other u = (d.link e).other u := by
    intro e u
    have hlink : (d'.link e).shape = (d.link e).shape := congrArg (fun s => s.link e) h
    obtain ⟨hsource, htarget, -⟩ := LinkShape.mk.inj hlink
    rw [Link.other, Link.other, hsource, htarget]
  have horder : (d'.ring c).order = (d.ring c).order := congrArg (fun s => (s.ring c).order) h
  unfold canMoveInside seatedNeighbors Body.seat?
  simp only [hseated, hother, horder]
  rcases hseats v with ⟨hnone, hnone'⟩ | ⟨s, s', hs, hs', hindex, hinner, houter⟩
  · rw [hnone, hnone']
  · rw [hs, hs']
    simp only [hindex, hinner, houter]

theorem firstToMoveInside?_congr (h : d'.skeleton = d.skeleton) (c : Nat) :
    d'.firstToMoveInside? c = d.firstToMoveInside? c := by
  have horder : (d'.ring c).order = (d.ring c).order := congrArg (fun s => (s.ring c).order) h
  rw [firstToMoveInside?, firstToMoveInside?, ← chords_skeleton, ← chords_skeleton, h, horder]
  exact congrArg (List.find? · _) (funext fun v => canMoveInside_congr h c _ v)

/-- The first who may move inside a ring does, and with a budget of one nobody else. -/
theorem skeleton_moveMembersInside_one (h : d.skeleton.Seated members) {c v : Nat}
    (hv : d.firstToMoveInside? c = some v) (hlong : 3 < (d.ring c).order.length) :
    (moveMembersInside c 1 d).2.skeleton =
      d.skeleton.takeInside c ((d.ring c).order.idxOf v) v := by
  have hmem : v ∈ (d.ring c).order := List.mem_of_find?_eq_some hv
  rw [moveMembersInside, if_pos hlong, hv]
  dsimp only
  rw [moveMembersInside, skeleton_setCenter]
  exact skeleton_moveInside h
    ((CyclicOrder.idxOf?_eq_iff (h.order_nodup c)).mpr (List.getElem?_idxOf hmem))

/-! ## Reversal -/

/-- A test for reversal keeps the crossings of all rings. -/
theorem crossings_tryReverse (h : d.skeleton.Seated members) (c : Nat) :
    Reseats members d.skeleton (d.tryReverse c).2.skeleton ∧
      (d.tryReverse c).2.skeleton.crossings = d.skeleton.crossings := by
  unfold tryReverse
  split
  · split
    · split
      · dsimp only
        rw [skeleton_modifyRing_eq, skeleton_reverseRing h]
        · exact ⟨h.reseats_reorder (CyclicOrder.reverse_perm _), h.crossings_reverse c⟩
        · exact fun _ => rfl
      · exact ⟨.refl h, rfl⟩
    · exact ⟨.refl h, rfl⟩
  · exact ⟨.refl h, rfl⟩

/-- Testing rings one after the other for reversal keeps the crossings of all rings. -/
theorem crossings_tryReverses (h : d.skeleton.Seated members) (rings : List Nat) :
    Reseats members d.skeleton (rings.foldl (fun d c => (tryReverse d c).2) d).skeleton ∧
      (rings.foldl (fun d c => (tryReverse d c).2) d).skeleton.crossings =
        d.skeleton.crossings := by
  induction rings generalizing d with
  | nil => exact ⟨.refl h, rfl⟩
  | cons c rings ih =>
      obtain ⟨hfirst, hcrossings⟩ := crossings_tryReverse h c
      obtain ⟨hlast, heq⟩ := ih hfirst.seated
      exact ⟨hfirst.trans hlast, heq.trans hcrossings⟩

end Drawing

end RingLayout
