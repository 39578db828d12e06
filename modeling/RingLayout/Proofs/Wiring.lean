import RingLayout.Proofs.Seating.Inside
import RingLayout.Proofs.Seating.Reorder

/-! # Wirings

The wiring of a skeleton says which bodies stand for which nodes and which nodes are linked. Rings
may be reordered and members may go inside without a change to it.
-/

namespace RingLayout

namespace Place

/-- The ring that a part belongs to. -/
def ring? : Place → Option Nat
  | .free => none
  | .seated c _ _ _ => some c
  | .inside c => some c
  | .hub c => some c

theorem ring?_withIndex (p : Place) (i : Nat) : (p.withIndex i).ring? = p.ring? := by
  cases p <;> rfl

theorem ring?_of_seat? {p : Place} {c i : Nat} (h : p.seat? = some (c, i)) : p.ring? = some c := by
  cases p with
  | seated => exact congrArg (·.map Prod.fst) h
  | _ => cases h

end Place

/-- How the nodes of a drawing hang together. -/
structure Wiring where
  nodeCount : Nat
  linkCount : Nat
  /-- Where a link ends. -/
  ends : Nat → Nat × Nat
  ring? : Nat → Option Nat
  hub : Nat → Nat
  roots : List Nat
  tiled : List Nat

namespace Skeleton

def wiring (s : Skeleton) : Wiring where
  nodeCount := s.nodeCount
  linkCount := s.linkCount
  ends e := ((s.link e).source, (s.link e).target)
  ring? v := (s.place v).ring?
  hub c := (s.ring c).hub
  roots := s.roots
  tiled := s.tiled

variable {members : Nat → List Nat} {s : Skeleton}

/-- The second skeleton is seated and has the wiring of the first. -/
structure Reseats (members : Nat → List Nat) (s t : Skeleton) : Prop where
  seated : t.Seated members
  wiring_eq : t.wiring = s.wiring

namespace Reseats

theorem refl (h : s.Seated members) : Reseats members s s := ⟨h, rfl⟩

theorem trans {t u : Skeleton} (hst : Reseats members s t) (htu : Reseats members t u) :
    Reseats members s u :=
  ⟨htu.seated, htu.wiring_eq.trans hst.wiring_eq⟩

end Reseats

/-- Another order of a ring leaves its members and its hub. -/
theorem Seated.reseats_reorder (h : s.Seated members) {c : Nat} {order : List Nat}
    (hperm : order.Perm (s.ring c).order) : Reseats members s (s.reorder c order) where
  seated := h.reorder hperm
  wiring_eq := by
    have horder : order.Nodup := hperm.nodup_iff.mpr (h.order_nodup c)
    have hring : (fun v => ((s.reorder c order).place v).ring?) = fun v => (s.place v).ring? := by
      funext v
      rw [place_reorder s c horder]
      split
      · exact Place.ring?_withIndex _ _
      · rfl
    have hhub : (fun b => ((s.reorder c order).ring b).hub) = fun b => (s.ring b).hub := by
      funext b
      rw [ring_reorder]
      split
      next hb => rw [hb]
      next => rfl
    rw [wiring, hring, hhub, reorder_eq]
    rfl

/-- A member that goes inside stays with its ring. -/
theorem Seated.reseats_takeInside (h : s.Seated members) {c i v : Nat}
    (hv : (s.ring c).order[i]? = some v) : Reseats members s (s.takeInside c i v) where
  seated := h.takeInside hv
  wiring_eq := by
    have hring : (fun u => ((s.takeInside c i v).place u).ring?) = fun u => (s.place u).ring? := by
      funext u
      by_cases hu : u = v
      · subst hu
        rw [place_takeInside_self, Place.ring?_of_seat? ((h.seat_iff u c i).mpr hv)]
        rfl
      · rw [s.place_takeInside (h.order_nodup c) hu]
        split
        · exact Place.ring?_withIndex _ _
        · rfl
    have hhub : (fun b => ((s.takeInside c i v).ring b).hub) = fun b => (s.ring b).hub := by
      funext b
      rw [ring_takeInside]
      split
      next hb => rw [hb]
      next => rfl
    rw [wiring, hring, hhub, takeInside_eq]
    rfl

end Skeleton

end RingLayout
