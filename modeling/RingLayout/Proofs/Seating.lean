import Mathlib.Data.List.Perm.Basic
import RingLayout.CyclicOrder
import RingLayout.Proofs.Skeleton

/-! # Seatings

The orders of the rings and the seats of the bodies say the same thing twice, and the four lists
sort all bodies by their parts. A skeleton in which all of this agrees is seated.
-/

open scoped List

namespace RingLayout

namespace CyclicOrder

/-- In an order without repetition a member stands at its index and nowhere else. -/
theorem getElem?_eq_some_iff {order : List Nat} (horder : order.Nodup) {v i : Nat} :
    order[i]? = some v ↔ v ∈ order ∧ order.idxOf v = i := by
  constructor
  · intro hv
    obtain ⟨hi, rfl⟩ := List.getElem?_eq_some_iff.mp hv
    exact ⟨List.getElem_mem hi, horder.idxOf_getElem i hi⟩
  · rintro ⟨hv, rfl⟩
    exact List.getElem?_idxOf hv

end CyclicOrder

namespace Place

/-- The ring and the index of a seat. -/
def seat? : Place → Option (Nat × Nat)
  | .seated c i _ _ => some (c, i)
  | _ => none

theorem seat?_withIndex (p : Place) (i : Nat) :
    (p.withIndex i).seat? = p.seat?.map fun s => (s.1, i) := by
  cases p <;> rfl

theorem withIndex_eq_inside_iff {p : Place} {i c : Nat} :
    p.withIndex i = .inside c ↔ p = .inside c := by
  cases p <;> simp [withIndex]

theorem withIndex_eq_self {p : Place} {c i : Nat} (hp : p.seat? = some (c, i)) :
    p.withIndex i = p := by
  cases p with
  | seated b k inner outer =>
      rw [seat?, Option.some.injEq, Prod.mk.injEq] at hp
      rw [withIndex, hp.2]
  | _ => rfl

theorem withIndex_withIndex (p : Place) (i j : Nat) :
    (p.withIndex i).withIndex j = p.withIndex j := by
  cases p <;> rfl

end Place

namespace Role

variable {K : Type}

theorem seat?_place (r : Role K) : r.place.seat? = r.seat?.map fun s => (s.ring, s.index) := by
  cases r <;> rfl

theorem place_eq_inside_iff {r : Role K} {c : Nat} : r.place = .inside c ↔ r = .inside c := by
  cases r <;> simp [place]

end Role

namespace Skeleton

/-- The rings, the seats and the lists of a skeleton agree. `members` are the members that every
ring was built with. -/
structure Seated (members : Nat → List Nat) (s : Skeleton) : Prop where
  /-- A body has a seat on a ring exactly where the order of the ring lists it. -/
  seat_iff : ∀ v c i, (s.place v).seat? = some (c, i) ↔ (s.ring c).order[i]? = some v
  inside_iff : ∀ v c, s.place v = .inside c ↔ v ∈ (s.ring c).inside
  members_perm : ∀ c, ((s.ring c).order ++ (s.ring c).inside).Perm (members c)
  members_nodup : ∀ c, (members c).Nodup
  mem_seated_iff : ∀ v, v ∈ s.seated ↔ (s.place v).seat?.isSome
  mem_inside_iff : ∀ v, v ∈ s.inside ↔ ∃ c, s.place v = .inside c
  /-- Every body stands in exactly one of the four lists, once. -/
  parts_perm : (s.seated ++ s.inside ++ s.roots ++ s.tiled).Perm (List.range s.bodyCount)
  /-- An inner link of a ring joins two of its members. -/
  ends_mem : ∀ c, ∀ e ∈ (s.ring c).innerLinks,
    (s.link e).source ∈ members c ∧ (s.link e).target ∈ members c

variable {members : Nat → List Nat} {s : Skeleton}

namespace Seated

theorem order_append_nodup (h : s.Seated members) (c : Nat) :
    ((s.ring c).order ++ (s.ring c).inside).Nodup :=
  (h.members_perm c).nodup_iff.mpr (h.members_nodup c)

theorem order_nodup (h : s.Seated members) (c : Nat) : (s.ring c).order.Nodup :=
  (List.nodup_append.mp (h.order_append_nodup c)).1

theorem seat?_of_mem (h : s.Seated members) {c v : Nat} (hv : v ∈ (s.ring c).order) :
    (s.place v).seat? = some (c, (s.ring c).order.idxOf v) :=
  (h.seat_iff v c _).mpr (List.getElem?_idxOf hv)

theorem seated_nodup (h : s.Seated members) : s.seated.Nodup := by
  have hparts := h.parts_perm.nodup_iff.mpr List.nodup_range
  simp only [List.append_assoc] at hparts
  exact (List.nodup_append.mp hparts).1

/-- A body stands in the order of one ring only. -/
theorem ring_unique (h : s.Seated members) {b c v : Nat} (hb : v ∈ (s.ring b).order)
    (hc : v ∈ (s.ring c).order) : b = c := by
  have heq := (h.seat?_of_mem hb).symm.trans (h.seat?_of_mem hc)
  exact congrArg Prod.fst (Option.some.inj heq)

end Seated

/-! ## Numbering seats -/

theorem setIndices_cons (s : Skeleton) (p : Nat × Nat) (seats : List (Nat × Nat)) :
    s.setIndices (p :: seats) = (s.setIndex p.1 p.2).setIndices seats := rfl

/-- Numbering the seats of distinct bodies from `start` on. -/
theorem place_setIndices (s : Skeleton) {order : List Nat} (horder : order.Nodup) (start u : Nat) :
    (s.setIndices (order.zipIdx start)).place u =
      if u ∈ order then (s.place u).withIndex (start + order.idxOf u) else s.place u := by
  induction order generalizing s start with
  | nil => rfl
  | cons v rest ih =>
      obtain ⟨hv, hrest⟩ := List.nodup_cons.mp horder
      rw [List.zipIdx_cons, setIndices_cons, ih _ hrest, place_setIndex]
      by_cases hu : u = v
      · subst hu
        simp [hv]
      · have hidx : (v :: rest).idxOf u = rest.idxOf u + 1 := List.idxOf_cons_ne _ (Ne.symm hu)
        simp only [List.mem_cons, hu, false_or, hidx]
        congr 2
        omega

/-- Numbering seats changes nothing but the parts of bodies. -/
theorem setIndices_eq (s : Skeleton) (seats : List (Nat × Nat)) :
    s.setIndices seats = { s with body := (s.setIndices seats).body } := by
  induction seats generalizing s with
  | nil => rfl
  | cons p seats ih =>
      rw [setIndices_cons, ih]
      rfl

theorem body_setIndices (s : Skeleton) (seats : List (Nat × Nat)) (v : Nat) :
    (s.setIndices seats).body v =
      { s.body v with place := (s.setIndices seats).place v } := by
  induction seats generalizing s with
  | nil => rfl
  | cons p seats ih =>
      rw [setIndices_cons, ih]
      by_cases hv : v = p.1
      · subst hv
        simp [setIndex]
      · simp [setIndex, hv]

/-- Numberings that give every body the same part are the same. -/
theorem setIndices_congr {seats seats' : List (Nat × Nat)}
    (h : ∀ v, (s.setIndices seats).place v = (s.setIndices seats').place v) :
    s.setIndices seats = s.setIndices seats' := by
  rw [setIndices_eq, s.setIndices_eq seats']
  congr 1
  funext v
  rw [body_setIndices, body_setIndices, h]

/-- The members of a ring have their numbers already. -/
theorem Seated.setIndices_order (h : s.Seated members) (c : Nat) :
    s.setIndices (s.ring c).order.zipIdx = s := by
  change s.setIndices (s.ring c).order.zipIdx = s.setIndices []
  refine setIndices_congr fun v => ?_
  rw [place_setIndices s (h.order_nodup c), Nat.zero_add]
  split
  next hv => exact Place.withIndex_eq_self (h.seat?_of_mem hv)
  next => rfl

end Skeleton

end RingLayout
