import RingLayout.Proofs.Seating

/-! # Rings in another order

A ring is put into another order by numbering its seats anew. As long as the order has the same
members, a seated skeleton stays seated.
-/

open scoped List

namespace RingLayout.Skeleton

variable {members : Nat → List Nat} {s : Skeleton}

/-- Puts a ring into another order and numbers its seats anew. -/
def reorder (s : Skeleton) (c : Nat) (order : List Nat) : Skeleton :=
  (s.setIndices order.zipIdx).setRing c { s.ring c with order := order }

theorem place_reorder (s : Skeleton) (c : Nat) {order : List Nat} (horder : order.Nodup)
    (v : Nat) :
    (s.reorder c order).place v =
      if v ∈ order then (s.place v).withIndex (order.idxOf v) else s.place v := by
  have hplace := s.place_setIndices horder 0 v
  rwa [Nat.zero_add] at hplace

theorem ring_reorder (s : Skeleton) (c : Nat) (order : List Nat) (b : Nat) :
    (s.reorder c order).ring b =
      if b = c then { s.ring c with order := order } else s.ring b := by
  rw [reorder, setIndices_eq]
  exact Function.update_apply s.ring c _ b

/-- Apart from the order of one ring and the parts of bodies, nothing changes. -/
theorem reorder_eq (s : Skeleton) (c : Nat) (order : List Nat) :
    s.reorder c order =
      { s with body := (s.reorder c order).body, ring := (s.reorder c order).ring } := by
  rw [reorder, setIndices_eq]
  rfl

theorem body_reorder (s : Skeleton) (c : Nat) (order : List Nat) (v : Nat) :
    (s.reorder c order).body v = { s.body v with place := (s.reorder c order).place v } :=
  s.body_setIndices order.zipIdx v

theorem innerLinks_reorder (s : Skeleton) (c : Nat) (order : List Nat) (b : Nat) :
    ((s.reorder c order).ring b).innerLinks = (s.ring b).innerLinks := by
  rw [ring_reorder]
  split
  next hb => rw [hb]
  next => rfl

/-- Of two orders of the same members the second counts. -/
theorem reorder_reorder (s : Skeleton) (c : Nat) {first second : List Nat}
    (hfirst : first.Nodup) (hperm : first.Perm second) :
    (s.reorder c first).reorder c second = s.reorder c second := by
  have hsecond : second.Nodup := hperm.nodup_iff.mp hfirst
  have hbody : ((s.reorder c first).reorder c second).body = (s.reorder c second).body := by
    funext v
    rw [body_reorder, body_reorder, body_reorder, place_reorder _ c hsecond,
      place_reorder s c hsecond, place_reorder s c hfirst]
    by_cases hv : v ∈ second
    · simp only [if_pos hv, if_pos (hperm.mem_iff.mpr hv), Place.withIndex_withIndex]
    · simp only [if_neg hv, if_neg fun h => hv (hperm.mem_iff.mp h)]
  have hring : ((s.reorder c first).reorder c second).ring = (s.reorder c second).ring := by
    funext b
    simp only [ring_reorder, if_true]
    split <;> rfl
  rw [(s.reorder c first).reorder_eq, hbody, hring, s.reorder_eq c first]
  exact (s.reorder_eq c second).symm

/-- The order that a ring has changes nothing. -/
theorem Seated.reorder_self (h : s.Seated members) (c : Nat) :
    s.reorder c (s.ring c).order = s := by
  rw [Skeleton.reorder, h.setIndices_order]
  ext1
  case ring => exact Function.update_eq_self c s.ring
  all_goals rfl

/-- After a ring is put into another order, seats and orders still agree. -/
theorem Seated.seat_iff_reorder (h : s.Seated members) {c : Nat} {order : List Nat}
    (hperm : order.Perm (s.ring c).order) (v b i : Nat) :
    ((s.reorder c order).place v).seat? = some (b, i) ↔
      ((s.reorder c order).ring b).order[i]? = some v := by
  have horder : order.Nodup := hperm.nodup_iff.mpr (h.order_nodup c)
  rw [place_reorder s c horder, ring_reorder]
  by_cases hv : v ∈ order
  · rw [if_pos hv, Place.seat?_withIndex, h.seat?_of_mem (hperm.mem_iff.mp hv)]
    by_cases hb : b = c
    · subst hb
      simp [CyclicOrder.getElem?_eq_some_iff horder, hv]
    · -- the member of one ring stands in no other
      have hother : v ∉ (s.ring b).order := fun hmem =>
        hb (h.ring_unique hmem (hperm.mem_iff.mp hv))
      rw [if_neg hb]
      constructor
      · intro heq
        exact absurd (congrArg Prod.fst (Option.some.inj heq)).symm hb
      · intro heq
        exact absurd (List.mem_of_getElem? heq) hother
  · rw [if_neg hv, h.seat_iff]
    by_cases hb : b = c
    · -- neither the new order nor the old one lists the body
      subst hb
      rw [if_pos rfl]
      constructor
      · intro heq
        exact absurd (hperm.mem_iff.mpr (List.mem_of_getElem? heq)) hv
      · intro heq
        exact absurd (List.mem_of_getElem? heq) hv
    · rw [if_neg hb]

/-- A ring in another order of the same members is seated again. -/
theorem Seated.reorder (h : s.Seated members) {c : Nat} {order : List Nat}
    (hperm : order.Perm (s.ring c).order) : (s.reorder c order).Seated members := by
  have horder : order.Nodup := hperm.nodup_iff.mpr (h.order_nodup c)
  have hinside : ∀ v b, (s.reorder c order).place v = .inside b ↔ s.place v = .inside b := by
    intro v b
    rw [place_reorder s c horder]
    split
    · exact Place.withIndex_eq_inside_iff
    · rfl
  constructor
  case seat_iff => exact h.seat_iff_reorder hperm
  case inside_iff =>
    intro v b
    rw [hinside, h.inside_iff, ring_reorder]
    split
    next hb => rw [hb]
    next => rfl
  case members_perm =>
    intro b
    rw [ring_reorder]
    split
    next hb =>
      subst hb
      exact (hperm.append_right _).trans (h.members_perm b)
    next => exact h.members_perm b
  case members_nodup => exact h.members_nodup
  case mem_seated_iff =>
    intro v
    rw [reorder_eq]
    change v ∈ s.seated ↔ ((s.reorder c order).place v).seat?.isSome
    rw [h.mem_seated_iff, place_reorder s c horder]
    split
    · simp [Place.seat?_withIndex]
    · rfl
  case mem_inside_iff =>
    intro v
    simp only [hinside]
    rw [reorder_eq]
    exact h.mem_inside_iff v
  case parts_perm =>
    rw [reorder_eq]
    exact h.parts_perm
  case ends_mem =>
    intro b e he
    rw [innerLinks_reorder] at he
    rw [reorder_eq]
    exact h.ends_mem b e he

end RingLayout.Skeleton
