import RingLayout.Proofs.Seating.Build
import RingLayout.Proofs.Untangling

/-! # Operations keep drawings seated

A layout is made of some seventeen operations on drawings. Whatever their order and their
arguments are, the orders of the rings, the seats of the bodies and the four lists agree all the
time, a ring never loses or gains a member, and the wiring stays as it is.
-/

open scoped List

namespace RingLayout

open Skeleton (Reseats)

/-- An operation on drawings with its arguments. -/
inductive Operation (K : Type) where
  | arrange (ring : Nat) (separation : K)
  | spread (ring : Nat) (separation : K)
  | translate (ring : Nat) (delta : Point K)
  | rotate (ring : Nat) (angle : K)
  | swap (ring index : Nat)
  | reverse (ring : Nat)
  | moveInside (ring member : Nat)
  | refreshExchanges
  | performExchanges (memory : ExchangeMemory)
  | tryReverse (ring : Nat)
  | relocateInside (share separation : K)
  | gatherForces (settings : ForceSettings K) (connected : Bool)
  | move (cooling : K) (gather : Bool)
  | place (placement : Placement K)
  | pack (spacing : K)
  | tile (paddingX paddingY : K)
  | centerOn (target : Point K)

namespace Operation

variable {K : Type} [Scalar K]

/-- The drawing that an operation makes of another. -/
def apply (d : Drawing K) : Operation K → Drawing K
  | .arrange c separation => Run.arrangeRing d c separation
  | .spread c separation => d.spread c separation
  | .translate c delta => d.translateRing c delta
  | .rotate c angle => d.rotateRing c angle
  | .swap c i => d.swapWithNext c i
  | .reverse c => d.reverseRing c
  | .moveInside c v => d.moveInside c v
  | .refreshExchanges => d.refreshExchanges
  | .performExchanges m => (d.performExchanges m).2.1
  | .tryReverse c => (d.tryReverse c).2
  | .relocateInside share separation => (d.relocateInside share separation).2
  | .gatherForces s connected => Drawing.gatherForces s connected d
  | .move cooling gather => (Drawing.move cooling gather d).1
  | .place p => p.apply d
  | .pack spacing => (d.packComponents spacing).2
  | .tile paddingX paddingY => d.tileIsolated paddingX paddingY
  | .centerOn target => d.centerOn target

variable {members : Nat → List Nat} {d : Drawing K}

/-- Every operation makes a seated drawing of a seated one, and leaves its wiring. -/
theorem reseats_apply (h : d.skeleton.Seated members) (op : Operation K) :
    Reseats members d.skeleton (op.apply d).skeleton := by
  cases op with
  | arrange c separation =>
      rw [apply, Drawing.skeleton_arrangeRing h]
      exact h.reseats_reorder (d.arrangedOrder_perm c)
  | spread c separation =>
      rw [apply, Drawing.skeleton_spread h]
      exact .refl h
  | swap c i =>
      rw [apply, Drawing.skeleton_swapWithNext h]
      exact h.reseats_reorder (CyclicOrder.exchange_perm _ _ _)
  | reverse c =>
      rw [apply, Drawing.skeleton_reverseRing h]
      exact h.reseats_reorder (CyclicOrder.reverse_perm _)
  | moveInside c v => exact (Drawing.untangles_moveInside h c v).toReseats
  | performExchanges m => exact (Drawing.untangles_performExchanges h m).toReseats
  | tryReverse c => exact (Drawing.crossings_tryReverse h c).1
  | relocateInside share separation =>
      exact (Drawing.untangles_relocateInside h share separation).toReseats
  -- the others only move bodies and set flags
  | translate | rotate | refreshExchanges | gatherForces | move | place | pack | tile | centerOn =>
      simpa only [apply, Drawing.skeleton_translateRing, Drawing.skeleton_rotateRing,
        Drawing.skeleton_refreshExchanges, Drawing.skeleton_gatherForces, Drawing.skeleton_move,
        Placement.skeleton_apply, Drawing.skeleton_packComponents, Drawing.skeleton_tileIsolated,
        Drawing.skeleton_centerOn] using Reseats.refl h

/-- The drawing that operations make of another, one after the other. -/
def run (ops : List (Operation K)) (d : Drawing K) : Drawing K := ops.foldl apply d

theorem reseats_run (h : d.skeleton.Seated members) (ops : List (Operation K)) :
    Reseats members d.skeleton (run ops d).skeleton := by
  induction ops generalizing d with
  | nil => exact .refl h
  | cons op ops ih =>
      have hfirst := reseats_apply h op
      exact hfirst.trans (ih hfirst.seated)

theorem seated_run (h : d.skeleton.Seated members) (ops : List (Operation K)) :
    (run ops d).skeleton.Seated members :=
  (reseats_run h ops).seated

end Operation

namespace Drawing

variable {K : Type} [Scalar K]

/-- The rings, the seats and the lists of a drawing agree, and its rings have the members that
they had at the start. -/
structure WellSeated (start d : Drawing K) : Prop where
  /-- The member at a position of a ring has a seat there. -/
  seat_of_order : ∀ c i v, (d.ring c).order[i]? = some v →
    ∃ s, (d.body v).seat? = some s ∧ s.ring = c ∧ s.index = i
  /-- A body with a seat on a ring is in the order of this ring. -/
  mem_order_of_seat : ∀ v s, (d.body v).seat? = some s → v ∈ (d.ring s.ring).order
  members_nodup : ∀ c, ((d.ring c).order ++ (d.ring c).inside).Nodup
  members_perm : ∀ c, (d.ring c).order ++ (d.ring c).inside ~ (start.ring c).order
  /-- A member inside a ring has no seat and knows its ring. -/
  role_of_inside : ∀ c, ∀ v ∈ (d.ring c).inside, (d.body v).role = .inside c
  /-- Every body is in one of the four lists, and there once. -/
  parts_perm : d.seated ++ d.inside ++ d.roots ++ d.tiled ~ List.range d.bodies.size
  mem_seated_iff : ∀ v, v ∈ d.seated ↔ (d.body v).isSeated
  mem_inside_iff : ∀ v, v ∈ d.inside ↔ (d.body v).role.isInside

theorem place_eq (d : Drawing K) (v : Nat) : d.skeleton.place v = (d.body v).role.place := rfl

/-- A body sits on a ring where the order of the ring lists it. -/
theorem seat?_map_eq_some_iff {members : Nat → List Nat} {d : Drawing K}
    (h : d.skeleton.Seated members) (v c i : Nat) :
    (d.body v).seat?.map (fun s => (s.ring, s.index)) = some (c, i) ↔
      (d.ring c).order[i]? = some v := by
  rw [Body.seat?, ← Role.seat?_place]
  exact h.seat_iff v c i

/-- What it means for a drawing that its skeleton is seated. -/
theorem wellSeated_of_seated {start d : Drawing K}
    (h : d.skeleton.Seated fun c => (start.ring c).order) : WellSeated start d := by
  have hseat := seat?_map_eq_some_iff h
  constructor
  case seat_of_order =>
    intro c i v hv
    obtain ⟨s, hs, heq⟩ := Option.map_eq_some_iff.mp ((hseat v c i).mpr hv)
    rw [Prod.mk.injEq] at heq
    exact ⟨s, hs, heq⟩
  case mem_order_of_seat =>
    intro v s hs
    exact List.mem_of_getElem? ((hseat v s.ring s.index).mp (by rw [hs]; rfl))
  case members_nodup => exact h.order_append_nodup
  case members_perm => exact h.members_perm
  case role_of_inside =>
    intro c v hv
    exact Role.place_eq_inside_iff.mp ((h.inside_iff v c).mpr hv)
  case parts_perm => exact h.parts_perm
  case mem_seated_iff =>
    intro v
    refine (h.mem_seated_iff v).trans ?_
    rw [place_eq, Role.seat?_place, Option.isSome_map]
    rfl
  case mem_inside_iff =>
    intro v
    refine (h.mem_inside_iff v).trans ?_
    simp only [place_eq, Role.place_eq_inside_iff]
    cases (d.body v).role <;> simp [Role.isInside]

/-- After any operations on a new drawing, its rings, seats and lists agree. -/
theorem wellSeated_run {g : Graph K} {o : Options K} {d : Drawing K} (h : build g o = .ok d)
    (ops : List (Operation K)) : WellSeated d (Operation.run ops d) :=
  wellSeated_of_seated (Operation.seated_run (seated_build h) ops)

theorem wellSeated_run_crossedPairs :
    ∃ d : Drawing Float, build crossedPairs oneRing = .ok d ∧
      WellSeated d (Operation.run [.swap 0 1, .moveInside 0 2, .reverse 0] d) :=
  ⟨_, build_crossedPairs, wellSeated_run build_crossedPairs _⟩

end Drawing

end RingLayout
