import Mathlib.Logic.Equiv.Basic
import RingLayout.Proofs.Exchanges.Ring
import RingLayout.Proofs.Reversal.Ring

/-! # Attempted exchanges

An exchange gives two neighbours on a ring each other's seat. Another exchange at the same index
gives the seats back, so an attempt that would raise crossings leaves no trace but one: all members
of the ring are at the places that their angles give them.
-/

namespace RingLayout

namespace CyclicOrder

/-- An exchange of two members, wherever they stand. -/
theorem exchange_eq_map {order : List Nat} (horder : order.Nodup) {i j u v : Nat}
    (hu : order[i]? = some u) (hv : order[j]? = some v) :
    exchange order i j = order.map (Equiv.swap u v) := by
  have hindex : ∀ {k l w : Nat}, order[k]? = some w → order[l]? = some w → k = l := fun hk hl =>
    (List.getElem?_inj (List.getElem?_eq_some_iff.mp hk).1 horder).mp (hk.trans hl.symm)
  apply List.ext_getElem?
  intro k
  rw [getElem?_exchange hu hv, List.getElem?_map]
  split
  next hkj => rw [hkj, hv, Option.map_some, Equiv.swap_apply_right]
  next hkj =>
    split
    next hki => rw [hki, hu, Option.map_some, Equiv.swap_apply_left]
    next hki =>
      cases hw : order[k]? with
      | none => rfl
      | some w =>
          rw [Option.map_some, Equiv.swap_apply_of_ne_of_ne]
          · rintro rfl
            exact hki (hindex hw hu)
          · rintro rfl
            exact hkj (hindex hw hv)

theorem swap_mem_iff {order : List Nat} {u v : Nat} (hu : u ∈ order) (hv : v ∈ order) (w : Nat) :
    Equiv.swap u v w ∈ order ↔ w ∈ order := by
  rw [Equiv.swap_apply_def]
  split
  next hw => simp only [hw, hu, hv]
  next =>
    split
    next hw => simp only [hw, hu, hv]
    next => rfl

end CyclicOrder

namespace Body

variable {K : Type}

/-- A body whose seat, if it has one, has another angle and index. -/
def inSeat (b : Body K) (seat : K × Nat) : Body K :=
  { b with role := b.role.mapSeat fun s => { s with angle := seat.1, index := seat.2 } }

@[simp] theorem inSeat_inSeat (b : Body K) (seat seat' : K × Nat) :
    (b.inSeat seat).inSeat seat' = b.inSeat seat' := by
  obtain ⟨id, group, box, spring, repulsion, gravitation, role⟩ := b
  cases role <;> rfl

variable [Scalar K]

@[simp] theorem setCenter_inSeat (b : Body K) (seat : K × Nat) (p : Point K) :
    (b.inSeat seat).setCenter p = (b.setCenter p).inSeat seat := rfl

@[simp] theorem setCenter_setCenter (b : Body K) (p q : Point K) :
    (b.setCenter p).setCenter q = b.setCenter q := rfl

theorem angle_inSeat {b : Body K} (hb : b.isSeated) (seat : K × Nat) :
    (b.inSeat seat).angle = seat.1 :=
  angle_mapSeat (F := fun _ => seat.1) hb fun _ => rfl

end Body

namespace Drawing

variable {K : Type} [Scalar K] {members : Nat → List Nat} {d e e' : Drawing K} {c i j u v w : Nat}
  {p : Candidate K}

/-! ## Places and seats -/

/-- The members of a ring are at the places that their angles give them. -/
def InPlace (d : Drawing K) (c : Nat) : Prop :=
  ∀ v ∈ (d.ring c).order, (d.body v).box =
    (d.body v).box.recenter (Point.onCircle (d.ringCenter c) (d.ring c).radius (d.angleOf v))

theorem inSeat_seatOf (d : Drawing K) (w : Nat) : (d.body w).inSeat (d.seatOf w) = d.body w := by
  unfold seatOf
  generalize d.body w = b
  obtain ⟨id, group, box, spring, repulsion, gravitation, role⟩ := b
  cases role <;> rfl

/-- Who has been moved to a seat is found there. -/
theorem seatOf_of_body_eq (hw : (d.body w).isSeated = true) {seat : K × Nat} {p : Point K}
    (h : e.body w = ((d.body w).setCenter p).inSeat seat) : e.seatOf w = seat := by
  rw [seatOf, h]
  generalize d.body w = b at hw
  obtain ⟨id, group, box, spring, repulsion, gravitation, role⟩ := b
  cases role with
  | seated s => rfl
  | _ => cases hw

/-- What has come of a drawing by changes of seats and rings is given by its bodies and rings. -/
theorem Shuffles.eq_of_body_eq {moved : List Nat} (h : Shuffles moved d e)
    (h' : Shuffles moved d e') (hbody : ∀ w, e.body w = e'.body w) (hrings : e.rings = e'.rings) :
    e = e' := by
  have hsize : e.bodies.size = e'.bodies.size := h.bodyCount_eq.trans h'.bodyCount_eq.symm
  have hbodies : e.bodies = e'.bodies := by
    ext w hw hw'
    · exact hsize
    · simpa [body, Array.getD_eq_getD_getElem?, hw, hw'] using hbody w
  rw [h.rest_eq, h'.rest_eq, hbodies, hrings]

theorem eq_of_ring_eq (hsize : e.rings.size = d.rings.size) (hring : ∀ b, e.ring b = d.ring b) :
    e.rings = d.rings := by
  ext b hb hb'
  · exact hsize
  · simpa [ring, Array.getD_eq_getD_getElem?, hb, hb'] using hring b

theorem Shuffles.mono {moved moved' : List Nat} (h : Shuffles moved d e)
    (hsub : moved ⊆ moved') : Shuffles moved' d e :=
  { h with body_eq := fun w hw => h.body_eq w fun hmem => hw (hsub hmem) }

theorem shuffles_placeMembers {moved : List Nat} (hmoved : ∀ w ∈ (d.ring c).order, w ∈ moved) :
    Shuffles moved d (d.placeMembers c) :=
  .foldl fun w hw d => .modifyBody d (hmoved w hw) fun b => .setCenter b _

theorem shuffles_exchanged (hu : u ∈ (d.ring c).order) (hv : v ∈ (d.ring c).order) :
    Shuffles (d.ring c).order d (d.exchanged c i j u v) := by
  have hseat : ∀ (d' : Drawing K) {w : Nat} (seat : K × Nat), w ∈ (d.ring c).order →
      Shuffles (d.ring c).order d'
        (d'.modifySeat w fun s => { s with angle := seat.1, index := seat.2 }) :=
    fun d' _ _ hw => .modifyBody d' hw fun b => .mapSeat b fun _ => ⟨_, _, rfl⟩
  exact ((hseat d (d.seatOf v) hu).trans (hseat _ (d.seatOf u) hv)).trans (.modifyRing _ c _)

/-- Members that are in place need not be placed. -/
theorem InPlace.placeMembers_eq (h : InPlace d c) (hd : d.skeleton.Sound members) :
    d.placeMembers c = d := by
  apply (shuffles_placeMembers fun _ => id).eq_of_body_eq (.refl (d.ring c).order d)
  case hbody =>
    intro w
    rw [body_placeMembers hd]
    split
    next hw =>
      have hbox := h w hw
      rw [angleOf_eq] at hbox
      rw [Body.setCenter, ← hbox]
    next => rfl
  case hrings => exact d.rings_placeMembers c

/-! ## Exchanged seats -/

section Exchange

variable (hlong : 2 ≤ (d.ring c).order.length) (hu : (d.ring c).order[i]? = some u)
  (hv : (d.ring c).order[CyclicOrder.next (d.ring c).order i]? = some v)
include hlong hu hv

theorem swapWithNext_eq : d.swapWithNext c i =
    (d.exchanged c i (CyclicOrder.next (d.ring c).order i) u v).placeMembers c := by
  have hne := CyclicOrder.next_ne (List.getElem?_eq_some_iff.mp hu).1 hlong
  unfold swapWithNext
  simp only [hu, hv, if_neg hne.symm]
  rfl

theorem rings_swapWithNext : (d.swapWithNext c i).rings = d.rings.modify c fun r =>
    { r with order := CyclicOrder.exchange r.order i (CyclicOrder.next (d.ring c).order i) } := by
  rw [swapWithNext_eq hlong hu hv, rings_placeMembers]
  rfl

theorem ring_swapWithNext (b : Nat) : (d.swapWithNext c i).ring b =
    if b = c then { d.ring c with
      order := CyclicOrder.exchange (d.ring c).order i (CyclicOrder.next (d.ring c).order i) }
    else d.ring b := by
  let e := d.modifyRing c fun r =>
    { r with order := CyclicOrder.exchange r.order i (CyclicOrder.next (d.ring c).order i) }
  have hring : (d.swapWithNext c i).ring b = e.ring b :=
    ring_of_rings (rings_swapWithNext hlong hu hv) b
  rw [hring]
  exact ring_modifyRing d (lt_size_of_mem_order (List.mem_of_getElem? hu)) _ b

theorem shuffles_swapWithNext : Shuffles (d.ring c).order d (d.swapWithNext c i) := by
  have hring := ring_swapWithNext hlong hu hv c
  rw [swapWithNext_eq hlong hu hv] at hring ⊢
  rw [ring_placeMembers, if_pos rfl] at hring
  have hseats : Shuffles (d.ring c).order d
      (d.exchanged c i (CyclicOrder.next (d.ring c).order i) u v) :=
    shuffles_exchanged (List.mem_of_getElem? hu) (List.mem_of_getElem? hv)
  apply hseats.trans
  apply shuffles_placeMembers
  intro w hw
  rw [hring] at hw
  exact (CyclicOrder.exchange_perm _ _ _).mem_iff.mp hw

variable (hd : d.skeleton.Sound members)
include hd

theorem ne_of_next : u ≠ v := by
  rintro rfl
  have hi := (List.getElem?_eq_some_iff.mp hu).1
  have hsame := (List.getElem?_inj hi (hd.seated.order_nodup c)).mp (hu.trans hv.symm)
  exact CyclicOrder.next_ne hi hlong hsame.symm

/-- Everybody takes a seat, the two neighbours each other's and all others their own. -/
theorem body_exchanged (w : Nat) : (d.exchanged c i j u v).body w =
    (d.body w).inSeat (d.seatOf (Equiv.swap u v w)) := by
  have hne := ne_of_next hlong hu hv hd
  have husize := lt_size_of_seated hd.seated (List.mem_of_getElem? hu)
  have hvsize := lt_size_of_seated hd.seated (List.mem_of_getElem? hv)
  let first := d.modifyBody u (·.inSeat (d.seatOf v))
  have hsize : v < first.bodies.size := hvsize.trans_eq Array.size_modify.symm
  change (first.modifyBody v (·.inSeat (d.seatOf u))).body w = _
  rw [body_modifyBody first hsize, body_modifyBody d husize, body_modifyBody d husize]
  by_cases hwv : w = v
  · subst hwv
    rw [if_pos rfl, if_neg hne.symm, Equiv.swap_apply_right]
  · by_cases hwu : w = u
    · subst hwu
      rw [if_neg hwv, if_pos rfl, Equiv.swap_apply_left]
    · rw [if_neg hwv, if_neg hwu, Equiv.swap_apply_of_ne_of_ne hwu hwv, inSeat_seatOf]

/-- After an exchange all members are at their places, the two at each other's. -/
theorem body_swapWithNext (hw : w ∈ (d.ring c).order) : (d.swapWithNext c i).body w =
    ((d.body w).setCenter (Point.onCircle (d.ringCenter c) (d.ring c).radius
      (d.seatOf (Equiv.swap u v w)).1)).inSeat (d.seatOf (Equiv.swap u v w)) := by
  have hmem := List.mem_of_getElem? hu
  have hsound := sound_swapWithNext hd c i
  have hring := ring_swapWithNext hlong hu hv c
  rw [swapWithNext_eq hlong hu hv] at hsound hring ⊢
  rw [skeleton_placeMembers] at hsound
  rw [ring_placeMembers, if_pos rfl] at hring
  have hcenter := (shuffles_exchanged (i := i) (j := CyclicOrder.next (d.ring c).order i) hmem
    (List.mem_of_getElem? hv)).ringCenter_eq hd (lt_size_of_mem_order hmem) (by rw [hring])
  have hw' : w ∈ CyclicOrder.exchange (d.ring c).order i (CyclicOrder.next (d.ring c).order i) :=
    (CyclicOrder.exchange_perm _ _ _).mem_iff.mpr hw
  rw [body_placeMembers hsound, hcenter, hring, if_pos hw', body_exchanged hlong hu hv hd,
    Body.angle_inSeat (isSeated_of_mem_order hd hw), Body.setCenter_inSeat]

end Exchange

/-- Two members of a ring have exchanged slots. All members of the ring are at the places of the
seats that they now hold, and nothing else differs. -/
structure Traded (c u v : Nat) (d e : Drawing K) : Prop where
  ring_eq : e.ring c = { d.ring c with order := (d.ring c).order.map (Equiv.swap u v) }
  others_eq : ∀ b, b ≠ c → e.ring b = d.ring b
  ringCount_eq : e.rings.size = d.rings.size
  body_eq : ∀ w ∈ (d.ring c).order, e.body w =
    ((d.body w).setCenter (Point.onCircle (d.ringCenter c) (d.ring c).radius
      (d.seatOf (Equiv.swap u v w)).1)).inSeat (d.seatOf (Equiv.swap u v w))
  shuffles : Shuffles (d.ring c).order d e

theorem traded_swapWithNext (hlong : 2 ≤ (d.ring c).order.length)
    (hu : (d.ring c).order[i]? = some u)
    (hv : (d.ring c).order[CyclicOrder.next (d.ring c).order i]? = some v)
    (hd : d.skeleton.Sound members) : Traded c u v d (d.swapWithNext c i) := by
  have hring := ring_swapWithNext hlong hu hv
  have hnodup : (d.ring c).order.Nodup := hd.seated.order_nodup c
  constructor
  case ring_eq => rw [hring, if_pos rfl, CyclicOrder.exchange_eq_map hnodup hu hv]
  case others_eq =>
    intro b hb
    rw [hring, if_neg hb]
  case ringCount_eq =>
    rw [rings_swapWithNext hlong hu hv]
    exact Array.size_modify
  case body_eq => exact fun w hw => body_swapWithNext hlong hu hv hd hw
  case shuffles => exact shuffles_swapWithNext hlong hu hv

namespace Traded

theorem getElem?_order (h : Traded c u v d e) (k : Nat) :
    (e.ring c).order[k]? = (d.ring c).order[k]?.map (Equiv.swap u v) := by
  rw [h.ring_eq, List.getElem?_map]

theorem length_eq (h : Traded c u v d e) :
    (e.ring c).order.length = (d.ring c).order.length := by
  rw [h.ring_eq, List.length_map]

/-- The two stand the other way round. -/
theorem slots (h : Traded c u v d e) (hu : (d.ring c).order[i]? = some u)
    (hv : (d.ring c).order[CyclicOrder.next (d.ring c).order i]? = some v) :
    (e.ring c).order[i]? = some v ∧
      (e.ring c).order[CyclicOrder.next (e.ring c).order i]? = some u := by
  rw [CyclicOrder.next_congr h.length_eq, h.getElem?_order, h.getElem?_order, hu, hv,
    Option.map_some, Option.map_some, Equiv.swap_apply_left, Equiv.swap_apply_right]
  exact ⟨rfl, rfl⟩

theorem mem_order_iff (h : Traded c u v d e) (hu : u ∈ (d.ring c).order)
    (hv : v ∈ (d.ring c).order) (w : Nat) : w ∈ (e.ring c).order ↔ w ∈ (d.ring c).order := by
  rw [h.ring_eq, List.mem_map_of_involutive (Equiv.swap_apply_self u v)]
  exact CyclicOrder.swap_mem_iff hu hv w

theorem seatOf_eq (h : Traded c u v d e) (hd : d.skeleton.Sound members)
    (hw : w ∈ (d.ring c).order) : e.seatOf w = d.seatOf (Equiv.swap u v w) :=
  seatOf_of_body_eq (isSeated_of_mem_order hd hw) (h.body_eq w hw)

theorem ringCenter_eq (h : Traded c u v d e) (hd : d.skeleton.Sound members)
    (hu : u ∈ (d.ring c).order) : e.ringCenter c = d.ringCenter c := by
  apply h.shuffles.ringCenter_eq hd
  · exact lt_size_of_mem_order hu
  · rw [h.ring_eq]

/-- Who trades back has the first seat again. -/
theorem body_trans (h : Traded c u v d e) (h' : Traded c v u e e')
    (hd : d.skeleton.Sound members) (hu : u ∈ (d.ring c).order) (hv : v ∈ (d.ring c).order)
    (hw : w ∈ (d.ring c).order) : e'.body w = (d.body w).setCenter
      (Point.onCircle (d.ringCenter c) (d.ring c).radius (d.angleOf w)) := by
  have hseat : e.seatOf (Equiv.swap v u w) = d.seatOf w := by
    rw [h.seatOf_eq hd ((CyclicOrder.swap_mem_iff hv hu w).mpr hw), Equiv.swap_comm,
      Equiv.swap_apply_self]
  calc e'.body w
    _ = ((e.body w).setCenter (Point.onCircle (d.ringCenter c) (d.ring c).radius
          (d.angleOf w))).inSeat (d.seatOf w) := by
        rw [h'.body_eq w ((h.mem_order_iff hu hv w).mpr hw), hseat, h.ringCenter_eq hd hu,
          h.ring_eq]
        rfl
    _ = ((d.body w).inSeat (d.seatOf w)).setCenter
          (Point.onCircle (d.ringCenter c) (d.ring c).radius (d.angleOf w)) := by
        rw [h.body_eq w hw, Body.setCenter_inSeat, Body.setCenter_setCenter, Body.inSeat_inSeat,
          Body.setCenter_inSeat]
    _ = _ := by rw [inSeat_seatOf]

/-- Who trades back leaves no trace but that the members are in place. -/
theorem eq_placeMembers (h : Traded c u v d e) (h' : Traded c v u e e')
    (hd : d.skeleton.Sound members) (hu : u ∈ (d.ring c).order) (hv : v ∈ (d.ring c).order) :
    e' = d.placeMembers c := by
  have hmem := h.mem_order_iff hu hv
  have hback : Shuffles (d.ring c).order e e' := h'.shuffles.mono fun w => (hmem w).mp
  have hcycle : Equiv.swap v u ∘ Equiv.swap u v = id := by
    rw [Equiv.swap_comm]
    exact funext (Equiv.swap_apply_self u v)
  apply (h.shuffles.trans hback).eq_of_body_eq (shuffles_placeMembers fun _ => id)
  case hbody =>
    intro w
    rw [body_placeMembers hd, ← angleOf_eq]
    split
    next hw => exact h.body_trans h' hd hu hv hw
    next hw => rw [hback.body_eq w hw, h.shuffles.body_eq w hw]
  case hrings =>
    rw [rings_placeMembers]
    apply eq_of_ring_eq (h'.ringCount_eq.trans h.ringCount_eq)
    intro b
    by_cases hb : b = c
    · rw [hb, h'.ring_eq, h.ring_eq, List.map_map, hcycle, List.map_id]
    · rw [h'.others_eq b hb, h.others_eq b hb]

end Traded

/-- Another exchange at the same index gives the seats back. -/
theorem swapWithNext_swapWithNext (hlong : 2 ≤ (d.ring c).order.length)
    (hu : (d.ring c).order[i]? = some u)
    (hv : (d.ring c).order[CyclicOrder.next (d.ring c).order i]? = some v)
    (hd : d.skeleton.Sound members) :
    (d.swapWithNext c i).swapWithNext c i = d.placeMembers c := by
  have h := traded_swapWithNext hlong hu hv hd
  obtain ⟨hv', hu'⟩ := h.slots hu hv
  apply h.eq_placeMembers _ hd (List.mem_of_getElem? hu) (List.mem_of_getElem? hv)
  exact traded_swapWithNext (h.length_eq.symm ▸ hlong) hv' hu' (sound_swapWithNext hd c i)

/-! ## Attempts -/

/-- What an attempt to exchange a candidate makes of a drawing. -/
structure Attempted (c : Nat) (p : Candidate K) (d : Drawing K) (result : Bool × Drawing K) :
    Prop where
  /-- Candidates that are no longer at their index are refused. -/
  refused : ¬p.StandsIn (d.ring c).order → result = (false, d)
  done_iff : result.1 = true ↔ p.StandsIn (d.ring c).order ∧ Harmless d c p.index
  exchanged : result.1 = true → Traded c p.u p.v d result.2 ∧
    result.2.crossingCount c ≤ d.crossingCount c
  /-- A refused exchange places the members of the ring anew and does nothing else. -/
  takenBack : p.StandsIn (d.ring c).order → result.1 = false → result.2 = d.placeMembers c
  kept : result.1 = false → result.2.rings = d.rings ∧
    ∀ w, (result.2.body w).role = (d.body w).role
  unchanged : result.1 = false → InPlace d c → result.2 = d

theorem attempted_tryExchange (hd : d.skeleton.Sound members)
    (hlong : 2 ≤ (d.ring c).order.length) (p : Candidate K) :
    Attempted c p d (d.tryExchange c p) := by
  by_cases hp : p.StandsIn (d.ring c).order
  case neg =>
    have heq : d.tryExchange c p = (false, d) := if_neg fun h => hp ⟨h.1, h.2⟩
    rw [heq]
    constructor
    case refused => exact fun _ => rfl
    case done_iff => simp [hp]
    case exchanged => exact fun h => absurd h Bool.false_ne_true
    case takenBack => exact fun h => absurd h hp
    case kept => exact fun _ => ⟨rfl, fun _ => rfl⟩
    case unchanged => exact fun _ _ => rfl
  case pos =>
    have hu := List.mem_of_getElem? hp.behind
    have hv := List.mem_of_getElem? hp.ahead
    have htraded := traded_swapWithNext hlong hp.behind hp.ahead hd
    rw [tryExchange_eq hp]
    split
    next hmore =>
      have hback : (d.swapWithNext c p.index).swapWithNext c p.index = d.placeMembers c :=
        swapWithNext_swapWithNext hlong hp.behind hp.ahead hd
      rw [hback]
      constructor
      case refused => exact fun h => absurd hp h
      case done_iff => simp [hp, Harmless, hmore]
      case exchanged => exact fun h => absurd h Bool.false_ne_true
      case takenBack => exact fun _ _ => rfl
      case kept =>
        exact fun _ => ⟨d.rings_placeMembers c,
          view_placeMembers Body.role (fun _ _ => rfl) d c⟩
      case unchanged => exact fun _ h => h.placeMembers_eq hd
    next hmore =>
      constructor
      case refused => exact fun h => absurd hp h
      case done_iff => simp [hp, Harmless, Nat.le_of_not_lt hmore]
      case exchanged => exact fun _ => ⟨htraded, Nat.le_of_not_lt hmore⟩
      case takenBack => exact fun _ h => absurd h.symm Bool.false_ne_true
      case kept => exact fun h => absurd h.symm Bool.false_ne_true
      case unchanged => exact fun h => absurd h.symm Bool.false_ne_true

/-- After any operations on a new drawing, an attempt to exchange two members of a ring either
exchanges them or leaves no trace but that the members of the ring are in place, whatever pulls they
have gathered and whichever exchanges the rules allow: the skeleton of a drawing leaves both
open. -/
theorem attempted_run {g : Graph K} {o : Options K} {start : Drawing K}
    (h : build g o = .ok start) (ops : List (Operation K))
    (hd : d.skeleton = (Operation.run ops start).skeleton) (hlong : 2 ≤ (d.ring c).order.length)
    (p : Candidate K) : Attempted c p d (d.tryExchange c p) :=
  attempted_tryExchange (hd ▸ Operation.sound_run (sound_build h) ops) hlong p

/-- Four members whose links do not cross after an exchange. To exchange them back is refused. -/
theorem attempted_run_crossedPairs : ∃ start : Drawing Float,
    build crossedPairs oneRing = .ok start ∧
    2 ≤ ((Operation.run [.swap 0 0] start).ring 0).order.length ∧
    ((Operation.run [.swap 0 0] start).tryExchange 0 ⟨0, 1, 0, 0.0, false⟩).1 = false ∧
    Attempted 0 ⟨0, 1, 0, 0.0, false⟩ (Operation.run [.swap 0 0] start)
      ((Operation.run [.swap 0 0] start).tryExchange 0 ⟨0, 1, 0, 0.0, false⟩) := by
  have hlong : 2 ≤ ((Operation.run [.swap 0 0]
      (ofClusters crossedPairs oneRing [[0, 1, 2, 3]])).ring 0).order.length := by
    decide +kernel
  exact ⟨_, build_crossedPairs, hlong, by decide +kernel,
    attempted_run build_crossedPairs [.swap 0 0] rfl hlong _⟩

end Drawing

end RingLayout
