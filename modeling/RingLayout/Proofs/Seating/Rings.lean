import RingLayout.Proofs.Arrangement
import RingLayout.Proofs.Seating.Inside
import RingLayout.Proofs.Seating.Reorder
import RingLayout.Proofs.Skeleton.Motion

/-! # Ring operations on seated drawings

What the operations on one ring do to the skeleton of a drawing, provided that it is seated. An
exchange, a reversal and an arrangement put the ring into another order; a relocation takes a
member inside. Laying a ring out anew changes radius and angles only.
-/

open scoped List

namespace RingLayout

namespace CyclicOrder

theorem exchange_perm (order : List Nat) (i j : Nat) : (exchange order i j).Perm order := by
  unfold exchange
  split
  next u v hu hv =>
    obtain ⟨hi, rfl⟩ := List.getElem?_eq_some_iff.mp hu
    obtain ⟨hj, rfl⟩ := List.getElem?_eq_some_iff.mp hv
    exact List.set_set_perm hi hj
  next => exact .refl order

/-- After an exchange the two members have changed places. -/
theorem getElem?_exchange {order : List Nat} {i j u v : Nat} (hu : order[i]? = some u)
    (hv : order[j]? = some v) (k : Nat) :
    (exchange order i j)[k]? = if k = j then some u else if k = i then some v else order[k]? := by
  obtain ⟨hi, -⟩ := List.getElem?_eq_some_iff.mp hu
  obtain ⟨hj, -⟩ := List.getElem?_eq_some_iff.mp hv
  simp only [exchange, hu, hv, List.getElem?_set, List.length_set]
  by_cases hkj : k = j
  · subst hkj
    simp [hj]
  · rw [if_neg (Ne.symm hkj), if_neg hkj]
    by_cases hki : k = i
    · subst hki
      simp [hi]
    · rw [if_neg (Ne.symm hki), if_neg hki]

/-- Exchanging twice gives the order back. -/
theorem exchange_exchange (order : List Nat) (i j : Nat) :
    exchange (exchange order i j) i j = order := by
  cases hu : order[i]? with
  | none => simp [exchange, hu]
  | some u =>
      cases hv : order[j]? with
      | none => simp [exchange, hv]
      | some v =>
          have hi : (exchange order i j)[i]? = some v := by
            rw [getElem?_exchange hu hv, if_pos rfl]
            split
            next hij => rw [← hv, ← hu, hij]
            next => rfl
          have hj : (exchange order i j)[j]? = some u := by
            rw [getElem?_exchange hu hv, if_pos rfl]
          refine List.ext_getElem? fun k => ?_
          rw [getElem?_exchange hi hj, getElem?_exchange hu hv]
          split
          next hkj => rw [hkj, hv]
          next =>
            split
            next hki => rw [hki, hu]
            next => rfl

theorem next_congr {order order' : List Nat} (h : order.length = order'.length) (i : Nat) :
    next order i = next order' i := by
  rw [next, next, h]

end CyclicOrder

namespace Skeleton

variable {members : Nat → List Nat} {s : Skeleton}

/-- Two members that give each other their numbers. -/
theorem Seated.setIndex_setIndex (h : s.Seated members) {c i j u v : Nat}
    (hij : i ≠ j) (hu : (s.ring c).order[i]? = some u) (hv : (s.ring c).order[j]? = some v) :
    (s.setIndex u j).setIndex v i =
      s.setIndices (CyclicOrder.exchange (s.ring c).order i j).zipIdx := by
  have hperm := CyclicOrder.exchange_perm (s.ring c).order i j
  have horder := hperm.nodup_iff.mpr (h.order_nodup c)
  have huv : u ≠ v := by
    rintro rfl
    have heq := ((h.seat_iff u c i).mpr hu).symm.trans ((h.seat_iff u c j).mpr hv)
    exact hij (congrArg Prod.snd (Option.some.inj heq))
  have hidx := fun w k => CyclicOrder.getElem?_eq_some_iff horder (v := w) (i := k)
  have hget := CyclicOrder.getElem?_exchange hu hv
  have hu' := (hidx u j).mp (by rw [hget, if_pos rfl])
  have hv' := (hidx v i).mp (by rw [hget, if_neg hij, if_pos rfl])
  change s.setIndices [(u, j), (v, i)] = _
  refine setIndices_congr fun w => ?_
  change ((s.setIndex u j).setIndex v i).place w = _
  rw [place_setIndex, place_setIndex, place_setIndex,
    place_setIndices s horder, Nat.zero_add, if_neg (Ne.symm huv)]
  by_cases hwv : w = v
  · subst hwv
    rw [if_pos rfl, if_pos hv'.1, hv'.2]
  · rw [if_neg hwv]
    by_cases hwu : w = u
    · subst hwu
      rw [if_pos rfl, if_pos hu'.1, hu'.2]
    · rw [if_neg hwu]
      split
      next hw =>
        -- the others stay where they stood
        have hk := (hidx w _).mpr ⟨hw, rfl⟩
        rw [hget] at hk
        split at hk
        · exact absurd (Option.some.inj hk).symm hwu
        · split at hk
          · exact absurd (Option.some.inj hk).symm hwv
          · exact (Place.withIndex_eq_self ((h.seat_iff w c _).mpr hk)).symm
      next => rfl

end Skeleton

namespace Drawing

variable {K : Type} [Scalar K] {members : Nat → List Nat} {d : Drawing K}

/-! ## Numbers -/

/-- A loop whose steps give seats their indices. -/
theorem skeleton_foldl_setIndex {step : Drawing K → Nat × Nat → Drawing K}
    (hstep : ∀ d p, (step d p).skeleton = d.skeleton.setIndex p.1 p.2) (seats : List (Nat × Nat))
    (d : Drawing K) : (seats.foldl step d).skeleton = d.skeleton.setIndices seats :=
  (List.foldl_hom skeleton fun d p => (hstep d p).symm).symm

theorem skeleton_renumber (d : Drawing K) (start : Nat) (order : List Nat) :
    (d.renumber start order).skeleton = d.skeleton.setIndices (order.zipIdx start) := by
  refine skeleton_foldl_setIndex (fun d p => d.skeleton_modifySeat_index p.1 p.2 ?_) _ d
  exact fun _ => rfl

theorem skeleton_assignAngles (radius first : K) (index : Nat) (angle : K)
    (seats : List (Nat × K)) (d : Drawing K) :
    (assignAngles radius first index angle seats d).skeleton =
      d.skeleton.setIndices ((seats.map Prod.fst).zipIdx index) := by
  induction seats generalizing index angle d with
  | nil => rfl
  | cons seat rest ih =>
      obtain ⟨v, span⟩ := seat
      rw [assignAngles.eq_def]
      dsimp only
      rw [ih, d.skeleton_modifySeat_index v index]
      · rfl
      · exact fun _ => rfl

/-- A ring that does not exist has no members. -/
theorem ring_eq_blank (hc : d.rings.size ≤ c) : d.ring c = blankRing := by
  rw [ring, Array.getD_eq_getD_getElem?, Array.getElem?_eq_none hc, Option.getD_none]

/-- A body that does not exist plays no part. -/
theorem body_eq_blank {v : Nat} (hv : d.bodies.size ≤ v) : d.body v = Body.blank := by
  rw [body, Array.getD_eq_getD_getElem?, Array.getElem?_eq_none hv, Option.getD_none]

/-- The lengths of arc that the members of a ring ask for. -/
def spans (d : Drawing K) (c : Nat) (separation : K) : List K :=
  (d.ring c).order.map fun v => (d.body v).box.diagonal + separation

/-- The radius at which the spans fill the circle; a single member needs none. -/
def spreadRadius (d : Drawing K) (c : Nat) (separation : K) : K :=
  if (d.ring c).order.tail.isEmpty then 0.0 else Scalar.sum (d.spans c separation) / Scalar.turn

/-- A ring with the radius and the angles it is laid out with, before hub and members move. -/
def turned (d : Drawing K) (c : Nat) (separation : K) : Drawing K :=
  let radius := d.spreadRadius c separation
  let spans := d.spans c separation
  assignAngles radius (spans.headD 0.0) 0 (d.angleOf ((d.ring c).order.headD 0))
    ((d.ring c).order.zip spans) (d.modifyRing c fun r => { r with radius := radius })

theorem spread_eq (d : Drawing K) (c : Nat) (separation : K) : d.spread c separation =
    if (d.ring c).order = [] then d.turned c separation
    else ((d.turned c separation).fitHub c).placeMembers c := by
  unfold spread turned spreadRadius spans
  cases (d.ring c).order <;> rfl

theorem skeleton_turned (h : d.skeleton.Seated members) (c : Nat) (separation : K) :
    (d.turned c separation).skeleton = d.skeleton := by
  unfold turned spans
  dsimp only
  rw [skeleton_assignAngles, List.map_fst_zip (Nat.le_of_eq (List.length_map _).symm),
    skeleton_modifyRing_eq]
  · exact h.setIndices_order c
  · exact fun _ => rfl

/-- Laying a ring out anew leaves the parts of its members alone. -/
theorem skeleton_spread (h : d.skeleton.Seated members) (c : Nat) (separation : K) :
    (d.spread c separation).skeleton = d.skeleton := by
  rw [spread_eq]
  split
  · exact skeleton_turned h c separation
  · rw [skeleton_placeMembers, skeleton_fitHub, skeleton_turned h]

/-- Numbering the members of a ring in another order and giving the ring this order. -/
theorem skeleton_reorder {d' : Drawing K} {c : Nat} {order : List Nat} {f : Ring K → Ring K}
    (hseats : d'.skeleton = d.skeleton.setIndices order.zipIdx)
    (hf : (f (d'.ring c)).shape = { (d'.ring c).shape with order := order })
    (hperm : order.Perm (d.ring c).order) :
    (d'.modifyRing c f).skeleton = d.skeleton.reorder c order := by
  have hring : d'.skeleton.ring c = d.skeleton.ring c := by rw [hseats, Skeleton.setIndices_eq]
  have hcount : d'.skeleton.ringCount = d.skeleton.ringCount := by
    rw [hseats, Skeleton.setIndices_eq]
  -- a write to a ring that does not exist is lost, but then there is no order to change
  have hnone : d'.rings.size ≤ c → (d.ring c).order = [] := by
    intro hc
    change d'.skeleton.ringCount ≤ c at hc
    rw [hcount] at hc
    rw [ring_eq_blank hc]
    rfl
  rw [d'.skeleton_modifyRing c hf, Skeleton.reorder, hseats]
  · exact congrArg (fun r : RingShape => (d.skeleton.setIndices order.zipIdx).setRing c
      { r with order := order }) hring
  · intro hc
    have horder : order = (d'.ring c).shape.order := by
      have heq : (d'.ring c).shape.order = (d.ring c).order := congrArg RingShape.order hring
      rw [heq, hnone hc]
      rw [hnone hc] at hperm
      exact hperm.eq_nil
    rw [horder]

/-! ## Exchange -/

theorem seatOf_eq (d : Drawing K) {v c i : Nat} (hv : (d.skeleton.place v).seat? = some (c, i)) :
    (d.seatOf v).2 = i := by
  change (d.body v).role.place.seat? = some (c, i) at hv
  unfold seatOf Body.seat?
  cases hrole : (d.body v).role with
  | seated s =>
      rw [hrole] at hv
      exact congrArg Prod.snd (Option.some.inj hv)
  | _ =>
      rw [hrole] at hv
      cases hv

/-- An exchange with the next member exchanges the two in the order. -/
theorem skeleton_swapWithNext (h : d.skeleton.Seated members) (c i : Nat) :
    (d.swapWithNext c i).skeleton = d.skeleton.reorder c
      (CyclicOrder.exchange (d.ring c).order i (CyclicOrder.next (d.ring c).order i)) := by
  unfold swapWithNext
  dsimp only
  split
  next u v hu hv =>
    split
    next hij =>
      have hsame : CyclicOrder.exchange (d.ring c).order i i = (d.ring c).order := by
        refine List.ext_getElem? fun k => ?_
        rw [CyclicOrder.getElem?_exchange hu hu]
        split
        next hk => rw [hk, hu]
        next => rfl
      rw [← hij, hsame]
      exact (h.reorder_self c).symm
    next hij =>
      have hu2 := d.seatOf_eq ((h.seat_iff u c i).mpr hu)
      have hv2 := d.seatOf_eq ((h.seat_iff v c _).mpr hv)
      rw [skeleton_placeMembers]
      refine skeleton_reorder ?_ rfl (CyclicOrder.exchange_perm _ _ _)
      rw [skeleton_modifySeat_index _ v (d.seatOf u).2,
        skeleton_modifySeat_index d u (d.seatOf v).2, hu2, hv2]
      · exact h.setIndex_setIndex hij hu hv
      · exact fun _ => rfl
      · exact fun _ => rfl
  next hnone =>
    -- off the end of the order nothing is exchanged, here and there
    have hsame : ∀ j, CyclicOrder.next (d.ring c).order i = j →
        CyclicOrder.exchange (d.ring c).order i j = (d.ring c).order := by
      rintro j rfl
      unfold CyclicOrder.exchange
      split
      next u v hu hv => exact absurd hv (hnone u v hu)
      next => rfl
    rw [hsame _ rfl]
    exact (h.reorder_self c).symm

/-- A round trip of an exchange with the next member. -/
theorem skeleton_swapWithNext_swapWithNext (h : d.skeleton.Seated members) (c i : Nat) :
    ((d.swapWithNext c i).swapWithNext c i).skeleton = d.skeleton := by
  let order := (d.ring c).order
  let swapped := CyclicOrder.exchange order i (CyclicOrder.next order i)
  have hperm : swapped.Perm order := CyclicOrder.exchange_perm _ _ _
  have hskeleton : (d.swapWithNext c i).skeleton = d.skeleton.reorder c swapped :=
    skeleton_swapWithNext h c i
  have horder : ((d.swapWithNext c i).ring c).order = swapped := by
    change ((d.swapWithNext c i).skeleton.ring c).order = swapped
    rw [hskeleton, Skeleton.ring_reorder, if_pos rfl]
  have hseated : (d.swapWithNext c i).skeleton.Seated members := by
    rw [hskeleton]
    exact h.reorder hperm
  rw [skeleton_swapWithNext hseated, horder, CyclicOrder.next_congr hperm.length_eq,
    CyclicOrder.exchange_exchange, hskeleton,
    Skeleton.reorder_reorder _ c (hperm.nodup_iff.mpr (h.order_nodup c)) hperm]
  exact h.reorder_self c

/-! ## Reversal -/

/-- Mirroring a ring reads its order backwards. With fewer than three members that is the same
order. -/
theorem skeleton_reverseRing (h : d.skeleton.Seated members) (c : Nat) :
    (d.reverseRing c).skeleton =
      d.skeleton.reorder c (CyclicOrder.reverse (d.ring c).order) := by
  unfold reverseRing
  split
  next first second third rest horder =>
    dsimp only
    rw [skeleton_placeMembers, horder]
    refine skeleton_reorder ?_ rfl (horder ▸ CyclicOrder.reverse_perm _)
    rw [skeleton_renumber, foldl_eq_of_step_eq skeleton fun d v => d.skeleton_modifySeat v ?_]
    exact fun _ => rfl
  next hshort =>
    have hsame : CyclicOrder.reverse (d.ring c).order = (d.ring c).order := by
      match horder : (d.ring c).order with
      | [] => rfl
      | [a] => rfl
      | [a, b] => rfl
      | a :: b :: c :: rest => exact absurd horder (hshort a b c rest)
    rw [hsame]
    exact (h.reorder_self c).symm

/-! ## Arrangement -/

/-- The order that a ring is given by an arrangement. -/
def arrangedOrder (d : Drawing K) (c : Nat) : List Nat :=
  let members := (d.ring c).order
  let edges := (d.ring c).innerLinks.filterMap fun e =>
    match members.idxOf? (d.link e).source, members.idxOf? (d.link e).target with
    | some a, some b => some (a, b)
    | _, _ => none
  (Arrangement.arrange members.length edges).filterMap fun i => members[i]?

/-- The entries at all positions in turn. -/
theorem filterMap_getElem?_range {α : Type} (l : List α) :
    (List.range l.length).filterMap (fun i => l[i]?) = l := by
  induction l with
  | nil => rfl
  | cons v l ih =>
      rw [List.length_cons, List.range_succ_eq_map, List.filterMap_cons, List.filterMap_map]
      exact congrArg (v :: ·) ih

theorem arrangedOrder_perm (d : Drawing K) (c : Nat) :
    (d.arrangedOrder c).Perm (d.ring c).order := by
  have hedges : ∀ e ∈ (d.ring c).innerLinks.filterMap fun e =>
      match (d.ring c).order.idxOf? (d.link e).source,
          (d.ring c).order.idxOf? (d.link e).target with
      | some a, some b => some (a, b)
      | _, _ => none, e.1 < (d.ring c).order.length ∧ e.2 < (d.ring c).order.length := by
    intro e he
    obtain ⟨l, -, hl⟩ := List.mem_filterMap.mp he
    split at hl
    next a b ha hb =>
      cases hl
      obtain ⟨ha, -⟩ := List.idxOf?_eq_some_iff.mp ha
      obtain ⟨hb, -⟩ := List.idxOf?_eq_some_iff.mp hb
      exact ⟨ha, hb⟩
    next => cases hl
  have hperm := (Arrangement.arrange_perm hedges).filterMap fun i => (d.ring c).order[i]?
  rwa [filterMap_getElem?_range] at hperm

/-- A ring in the order of its arrangement, before it is laid out. -/
def arranged (d : Drawing K) (c : Nat) : Drawing K :=
  ((d.arrangedOrder c).zipIdx.foldl
    (fun d (p : Nat × Nat) => d.modifySeat p.1 fun s => { s with index := p.2, angle := 0.0 })
    d).modifyRing c fun ring => { ring with order := d.arrangedOrder c }

theorem arrangeRing_eq (d : Drawing K) (c : Nat) (separation : K) :
    Run.arrangeRing d c separation = (d.arranged c).spread c separation := rfl

theorem skeleton_arranged (d : Drawing K) (c : Nat) :
    (d.arranged c).skeleton = d.skeleton.reorder c (d.arrangedOrder c) := by
  refine skeleton_reorder ?_ rfl (d.arrangedOrder_perm c)
  refine skeleton_foldl_setIndex (fun d p => d.skeleton_modifySeat_index p.1 p.2 ?_) _ d
  exact fun _ => rfl

/-- Arranging a ring puts it into another order. -/
theorem skeleton_arrangeRing (h : d.skeleton.Seated members) (c : Nat) (separation : K) :
    (Run.arrangeRing d c separation).skeleton = d.skeleton.reorder c (d.arrangedOrder c) := by
  have hseated := h.reorder (d.arrangedOrder_perm c)
  rw [← skeleton_arranged] at hseated ⊢
  rw [arrangeRing_eq, skeleton_spread hseated]

theorem ringNumbers_congr {d' : Drawing K} (h : d'.skeleton = d.skeleton) :
    d'.ringNumbers = d.ringNumbers :=
  congrArg (fun s : Skeleton => List.range s.ringCount) h

/-- The order that a ring is to be given can be told from the skeleton. -/
theorem arrangedOrder_congr {d' : Drawing K} (h : d'.skeleton = d.skeleton) (c : Nat) :
    d'.arrangedOrder c = d.arrangedOrder c := by
  have hring : (d'.ring c).shape = (d.ring c).shape := congrArg (fun s => s.ring c) h
  obtain ⟨-, horder, -, hinner, -⟩ := RingShape.mk.inj hring
  have hlink : ∀ e, (d'.link e).shape = (d.link e).shape := fun e => congrArg (fun s => s.link e) h
  have hsource := fun e => (LinkShape.mk.inj (hlink e)).1
  have htarget := fun e => (LinkShape.mk.inj (hlink e)).2.1
  simp only [arrangedOrder, horder, hinner, hsource, htarget]

/-! ## Relocation -/

/-- A body that a ring lists exists. -/
theorem lt_size_of_seated (h : d.skeleton.Seated members) {c v : Nat}
    (hv : v ∈ (d.ring c).order) : v < d.bodies.size := by
  by_contra hsize
  have hseat : (d.body v).role.place.seat? = some (c, (d.ring c).order.idxOf v) :=
    h.seat?_of_mem hv
  rw [body_eq_blank (Nat.le_of_not_lt hsize)] at hseat
  cases hseat

theorem lt_size_of_mem_order {d : Drawing K} {c v : Nat} (hv : v ∈ (d.ring c).order) :
    c < d.rings.size := by
  by_contra hc
  rw [ring_eq_blank (Nat.le_of_not_lt hc)] at hv
  exact List.not_mem_nil hv

theorem lt_size_of_mem_inside {d : Drawing K} {c v : Nat} (hv : v ∈ (d.ring c).inside) :
    c < d.rings.size := by
  by_contra hc
  rw [ring_eq_blank (Nat.le_of_not_lt hc)] at hv
  exact List.not_mem_nil hv

/-- Taking a member off its ring takes it inside. -/
theorem skeleton_moveInside (h : d.skeleton.Seated members) {c v i : Nat}
    (hv : (d.ring c).order.idxOf? v = some i) :
    (d.moveInside c v).skeleton = d.skeleton.takeInside c i v := by
  have hmem : v ∈ (d.ring c).order := by
    obtain ⟨hi, hget, -⟩ := List.idxOf?_eq_some_iff.mp hv
    exact hget ▸ List.getElem_mem hi
  let order := (d.ring c).order.eraseIdx i
  let seats := d.renumber i (order.drop i)
  let left := seats.modifyRing c fun r => { r with order := order, inside := r.inside ++ [v] }
  have hseats : seats.skeleton = d.skeleton.setIndices ((order.drop i).zipIdx i) :=
    d.skeleton_renumber i _
  have hring : seats.skeleton.ring c = d.skeleton.ring c := by
    rw [hseats, Skeleton.setIndices_eq]
  -- numbers and ring first; then the member and the two lists
  have hleft : left.skeleton = (d.skeleton.setIndices ((order.drop i).zipIdx i)).setRing c
      { d.skeleton.ring c with order := order, inside := (d.skeleton.ring c).inside ++ [v] } := by
    rw [← hseats, ← hring]
    refine seats.skeleton_modifyRing c rfl fun hc => ?_
    have hcount : seats.skeleton.ringCount = d.skeleton.ringCount := by
      rw [hseats, Skeleton.setIndices_eq]
    change seats.skeleton.ringCount ≤ c at hc
    rw [hcount] at hc
    exact absurd (lt_size_of_mem_order hmem) (Nat.not_lt.mpr hc)
  have hv' : v < left.bodies.size := by
    have hcount : left.skeleton.bodyCount = d.skeleton.bodyCount := by
      rw [hleft, Skeleton.setIndices_eq]
      rfl
    change v < left.skeleton.bodyCount
    rw [hcount]
    exact lt_size_of_seated h hmem
  have hseated : left.skeleton.seated = d.skeleton.seated := by
    rw [hleft, Skeleton.setIndices_eq]
    rfl
  have hinside : left.skeleton.inside = d.skeleton.inside := by
    rw [hleft, Skeleton.setIndices_eq]
    rfl
  unfold moveInside
  dsimp only
  rw [hv]
  change { (left.modifyBody v fun b => { b with role := .inside c }).skeleton with
      seated := left.skeleton.seated.erase v
      inside := left.skeleton.inside ++ [v] } = _
  rw [left.skeleton_setRole hv', hseated, hinside, hleft]
  rfl

end Drawing

end RingLayout
