import RingLayout.Proofs.Seating

/-! # Members inside

A member is taken off its ring and put inside: the members behind it move up by one seat, and it
changes from one list of bodies to another. A seated skeleton stays seated.
-/

open scoped List

namespace RingLayout

namespace CyclicOrder

/-- With the member at an index taken out, the members behind it move up by one. -/
theorem getElem?_eraseIdx_eq_some_iff {order : List Nat} (horder : order.Nodup) {i k u v : Nat}
    (hv : order[i]? = some v) : (order.eraseIdx i)[k]? = some u ↔
      u ≠ v ∧ ∃ j, order[j]? = some u ∧ (if i < j then j - 1 else j) = k := by
  have hindex : ∀ {j w}, order[j]? = some w → (w = v ↔ j = i) := by
    intro j w hw
    constructor
    · rintro rfl
      exact ((getElem?_eq_some_iff horder).mp hw).2.symm.trans
        ((getElem?_eq_some_iff horder).mp hv).2
    · rintro rfl
      exact Option.some.inj (hw.symm.trans hv)
  rw [List.getElem?_eraseIdx]
  constructor
  · intro hu
    split at hu
    next hk =>
      exact ⟨fun heq => absurd ((hindex hu).mp heq) (by omega), k, hu, if_neg (by omega)⟩
    next hk =>
      exact ⟨fun heq => absurd ((hindex hu).mp heq) (by omega), k + 1, hu, if_pos (by omega)⟩
  · rintro ⟨hne, j, hj, rfl⟩
    have hji : j ≠ i := fun heq => hne ((hindex hj).mpr heq)
    by_cases hij : i < j
    · rw [if_pos hij, if_neg (by omega), Nat.sub_add_cancel (by omega)]
      exact hj
    · rw [if_neg hij, if_pos (by omega)]
      exact hj

end CyclicOrder

/-- Moving an element of a list to the end of another. -/
theorem append_concat_perm {l l' : List Nat} (rest : List Nat) {v : Nat} (h : l ~ v :: l') :
    l' ++ (rest ++ [v]) ~ l ++ rest :=
  calc l' ++ (rest ++ [v])
      ~ v :: (l' ++ rest) := by
        rw [← List.append_assoc]
        exact List.perm_append_singleton _ _
    _ ~ l ++ rest := h.symm.append_right rest

namespace Skeleton

variable {members : Nat → List Nat} {s : Skeleton}

/-- Takes the member at an index off its ring and puts it inside; the seats after it move up. -/
def takeInside (s : Skeleton) (c i v : Nat) : Skeleton :=
  let order := (s.ring c).order.eraseIdx i
  let rest := (s.setIndices ((order.drop i).zipIdx i)).setRing c
    { s.ring c with order := order, inside := (s.ring c).inside ++ [v] }
  { rest with
    body := Function.update rest.body v { rest.body v with place := .inside c }
    seated := s.seated.erase v
    inside := s.inside ++ [v] }

/-- Only the lists of members, the parts of bodies and one ring change. -/
theorem takeInside_eq (s : Skeleton) (c i v : Nat) :
    s.takeInside c i v =
      { s with
        body := (s.takeInside c i v).body
        ring := (s.takeInside c i v).ring
        seated := s.seated.erase v
        inside := s.inside ++ [v] } := by
  simp only [takeInside]
  rw [setIndices_eq]
  rfl

theorem ring_takeInside (s : Skeleton) (c i v b : Nat) :
    (s.takeInside c i v).ring b =
      if b = c then
        { s.ring c with
          order := (s.ring c).order.eraseIdx i
          inside := (s.ring c).inside ++ [v] }
      else s.ring b := by
  simp only [takeInside]
  rw [setIndices_eq]
  exact Function.update_apply s.ring c _ b

theorem place_takeInside_self (s : Skeleton) (c i v : Nat) :
    (s.takeInside c i v).place v = .inside c := by
  simp [takeInside, place]

/-- The members behind the one that is taken off move up by one index. -/
theorem place_takeInside (s : Skeleton) {c i v u : Nat} (horder : (s.ring c).order.Nodup)
    (hu : u ≠ v) :
    (s.takeInside c i v).place u =
      if u ∈ (s.ring c).order.drop (i + 1) then
        (s.place u).withIndex (i + ((s.ring c).order.drop (i + 1)).idxOf u)
      else s.place u := by
  have hdrop : ((s.ring c).order.eraseIdx i).drop i = (s.ring c).order.drop (i + 1) := by
    rw [List.eraseIdx_eq_take_drop_succ, List.drop_append, List.drop_take, Nat.sub_self,
      List.take_zero, List.nil_append, List.length_take]
    by_cases hi : i ≤ (s.ring c).order.length
    · rw [Nat.min_eq_left hi, Nat.sub_self, List.drop_zero]
    · rw [List.drop_eq_nil_of_le (Nat.le_succ_of_le (Nat.le_of_not_le hi)), List.drop_nil]
  have hplace := s.place_setIndices (horder.sublist (List.drop_sublist (i + 1) _)) i u
  simp only [takeInside, hdrop]
  simp only [place, ne_eq, hu, not_false_eq_true, Function.update_of_ne]
  exact hplace

theorem Seated.seat?_takeInside (h : s.Seated members) {c i v u : Nat} (hu : u ≠ v) :
    ((s.takeInside c i v).place u).seat? =
      (s.place u).seat?.map fun p => if p.1 = c ∧ i < p.2 then (c, p.2 - 1) else p := by
  rw [s.place_takeInside (h.order_nodup c) hu]
  by_cases hmem : u ∈ (s.ring c).order.drop (i + 1)
  · have hk : (s.ring c).order[i + 1 + ((s.ring c).order.drop (i + 1)).idxOf u]? = some u := by
      rw [← List.getElem?_drop]
      exact List.getElem?_idxOf hmem
    rw [if_pos hmem, Place.seat?_withIndex, (h.seat_iff u c _).mpr hk]
    simp only [Option.map_some, true_and]
    rw [if_pos (by omega)]
    congr 2
    omega
  · rw [if_neg hmem]
    cases hseat : (s.place u).seat? with
    | none => rfl
    | some p =>
        obtain ⟨b, k⟩ := p
        rw [Option.map_some, if_neg]
        rintro ⟨rfl, hik⟩
        have hk := (h.seat_iff u b k).mp hseat
        apply hmem
        -- a seat behind the one that is given up is among those that move up
        rw [show k = i + 1 + (k - (i + 1)) by omega, ← List.getElem?_drop] at hk
        exact List.mem_of_getElem? hk

theorem innerLinks_takeInside (s : Skeleton) (c i v b : Nat) :
    ((s.takeInside c i v).ring b).innerLinks = (s.ring b).innerLinks := by
  rw [ring_takeInside]
  split
  next hb => rw [hb]
  next => rfl

/-- Among the members that stay, seats and orders still agree. -/
theorem Seated.seat_iff_takeInside (h : s.Seated members) {c i v u : Nat}
    (hv : (s.ring c).order[i]? = some v) (hu : u ≠ v) (b k : Nat) :
    ((s.takeInside c i v).place u).seat? = some (b, k) ↔
      ((s.takeInside c i v).ring b).order[k]? = some u := by
  rw [h.seat?_takeInside hu, ring_takeInside]
  by_cases hb : b = c
  · subst hb
    rw [if_pos rfl, CyclicOrder.getElem?_eraseIdx_eq_some_iff (h.order_nodup b) hv]
    simp only [← h.seat_iff, hu, ne_eq, not_false_eq_true, true_and]
    cases hseat : (s.place u).seat? with
    | none => simp
    | some p =>
        obtain ⟨a, j⟩ := p
        simp only [Option.map_some, Option.some.injEq, Prod.mk.injEq]
        by_cases ha : a = b
        · subst ha
          by_cases hij : i < j <;> simp [hij]
        · simp [ha]
  · -- the other rings keep their seats
    rw [if_neg hb, ← h.seat_iff u b k]
    cases (s.place u).seat? with
    | none => simp
    | some p =>
        simp only [Option.map_some, Option.some.injEq]
        split
        next hp =>
          constructor
          · intro heq
            exact absurd (congrArg Prod.fst heq).symm hb
          · intro heq
            rw [heq] at hp
            exact absurd hp.1 hb
        next => rfl

/-- The member that went inside has no seat, and no order lists it any more. -/
theorem Seated.not_mem_order_takeInside (h : s.Seated members) {c i v : Nat}
    (hv : (s.ring c).order[i]? = some v) (b : Nat) :
    v ∉ ((s.takeInside c i v).ring b).order := by
  intro hmem
  obtain ⟨k, hk⟩ := List.getElem?_of_mem hmem
  rw [ring_takeInside] at hk
  split at hk
  next =>
    exact ((CyclicOrder.getElem?_eraseIdx_eq_some_iff (h.order_nodup c) hv).mp hk).1 rfl
  next hb => exact hb (h.ring_unique (List.mem_of_getElem? hk) (List.mem_of_getElem? hv))

theorem Seated.inside_iff_takeInside (h : s.Seated members) {c i v u b : Nat} (hu : u ≠ v) :
    (s.takeInside c i v).place u = .inside b ↔ s.place u = .inside b := by
  rw [s.place_takeInside (h.order_nodup c) hu]
  split
  · exact Place.withIndex_eq_inside_iff
  · rfl

/-- With a member taken inside, a skeleton is seated again. -/
theorem Seated.takeInside (h : s.Seated members) {c i v : Nat}
    (hv : (s.ring c).order[i]? = some v) : (s.takeInside c i v).Seated members := by
  have hseat : (s.place v).seat? = some (c, i) := (h.seat_iff v c i).mpr hv
  constructor
  case seat_iff =>
    intro u b k
    by_cases hu : u = v
    · subst hu
      rw [place_takeInside_self]
      constructor
      · intro heq
        cases heq
      · intro heq
        exact absurd (List.mem_of_getElem? heq) (h.not_mem_order_takeInside hv b)
    · exact h.seat_iff_takeInside hv hu b k
  case inside_iff =>
    intro u b
    rw [ring_takeInside]
    by_cases hu : u = v
    · subst hu
      have hnot : s.place u ≠ .inside b := by
        intro heq
        rw [heq] at hseat
        cases hseat
      rw [place_takeInside_self]
      by_cases hb : b = c
      · simp [hb]
      · rw [if_neg hb, ← h.inside_iff]
        simp [Ne.symm hb, hnot]
    · rw [h.inside_iff_takeInside hu, h.inside_iff]
      split
      next hb => simp [hb, hu]
      next => rfl
  case members_perm =>
    intro b
    rw [ring_takeInside]
    split
    next hb =>
      subst hb
      obtain ⟨hi, hget⟩ := List.getElem?_eq_some_iff.mp hv
      have hcons : (s.ring b).order ~ v :: (s.ring b).order.eraseIdx i := by
        rw [← hget]
        exact (List.getElem_cons_eraseIdx_perm hi).symm
      exact (append_concat_perm _ hcons).trans (h.members_perm b)
    next => exact h.members_perm b
  case members_nodup => exact h.members_nodup
  case mem_seated_iff =>
    intro u
    rw [takeInside_eq]
    change u ∈ s.seated.erase v ↔ ((s.takeInside c i v).place u).seat?.isSome
    rw [h.seated_nodup.mem_erase_iff]
    by_cases hu : u = v
    · subst hu
      simp [place_takeInside_self, Place.seat?]
    · rw [h.seat?_takeInside hu, Option.isSome_map, ← h.mem_seated_iff]
      simp [hu]
  case mem_inside_iff =>
    intro u
    rw [takeInside_eq]
    change u ∈ s.inside ++ [v] ↔ ∃ b, (s.takeInside c i v).place u = .inside b
    by_cases hu : u = v
    · subst hu
      simp [place_takeInside_self]
    · simp only [h.inside_iff_takeInside hu, ← h.mem_inside_iff, List.mem_append,
        List.mem_singleton, hu, or_false]
  case parts_perm =>
    have hmem : v ∈ s.seated := (h.mem_seated_iff v).mpr (by rw [hseat]; rfl)
    have hmoved := append_concat_perm s.inside (List.perm_cons_erase hmem)
    rw [takeInside_eq]
    exact ((hmoved.append_right _).append_right _).trans h.parts_perm
  case ends_mem =>
    intro b e he
    rw [innerLinks_takeInside] at he
    rw [takeInside_eq]
    exact h.ends_mem b e he

end Skeleton

end RingLayout
