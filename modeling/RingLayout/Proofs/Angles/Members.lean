import RingLayout.Proofs.Motions.Members

/-! # The angles of a ring

The angles of the members in their order, and what the operations on a ring do to them as a list:
they turn or mirror all of them, drop some, or deal out new ones. An exchange leaves the list as it
is, since the two members exchange their angles too.
-/

namespace RingLayout

variable {K : Type} [Scalar K]

/-- A seat with another angle is seen at a body that has one. -/
theorem Body.angle_mapSeat {b : Body K} (hb : b.isSeated) {f : Seat K → Seat K} {F : K → K}
    (hf : ∀ s, (f s).angle = F s.angle) :
    ({ b with role := b.role.mapSeat f } : Body K).angle = F b.angle := by
  obtain ⟨id, group, box, spring, repulsion, gravitation, role⟩ := b
  cases role with
  | seated s => exact hf s
  | _ => cases hb

namespace Drawing

/-- The angles of the members on a ring. -/
def angles (d : Drawing K) (c : Nat) : List K := (d.ring c).order.map d.angleOf

variable {members : Nat → List Nat} {d d' : Drawing K} {c : Nat}

theorem angles_eq (d : Drawing K) (c : Nat) :
    d.angles c = (d.ring c).order.map fun v => (d.body v).angle :=
  List.map_congr_left fun v _ => d.angleOf_eq v

theorem order_eq (d : Drawing K) (c : Nat) : (d.ring c).order = (d.skeleton.ring c).order := rfl

/-- The same members at the same angles. -/
theorem angles_congr (horder : (d'.ring c).order = (d.ring c).order)
    (hangle : ∀ v ∈ (d.ring c).order, (d'.body v).angle = (d.body v).angle) :
    d'.angles c = d.angles c := by
  rw [angles_eq, angles_eq, horder]
  exact List.map_congr_left hangle

/-! ## Seats -/

theorem isSeated_of_mem_order (hd : d.skeleton.Sound members) {v : Nat}
    (hv : v ∈ (d.ring c).order) : (d.body v).isSeated = true := by
  have hseat : (d.body v).role.place.seat? = some (c, (d.ring c).order.idxOf v) :=
    hd.seated.seat?_of_mem hv
  rw [Body.isSeated]
  cases hrole : (d.body v).role with
  | seated s => rfl
  | _ =>
      rw [hrole] at hseat
      cases hseat

theorem lt_size_of_isSeated {v : Nat} (hv : (d.body v).isSeated = true) : v < d.bodies.size := by
  by_contra hsize
  rw [body_eq_blank (Nat.le_of_not_lt hsize)] at hv
  cases hv

theorem isSeated_modifySeat (d : Drawing K) (v u : Nat) (f : Seat K → Seat K) :
    ((d.modifySeat v f).body u).isSeated = (d.body u).isSeated := by
  refine view_modifyBody Body.isSeated d v u fun b => ?_
  cases hrole : b.role <;>
    simp only [Body.isSeated, hrole, Role.mapSeat, Role.seat?, Option.isSome_some]

theorem angle_modifySeat_self {v : Nat} (hv : (d.body v).isSeated = true) {f : Seat K → Seat K}
    {F : K → K} (hf : ∀ s, (f s).angle = F s.angle) :
    ((d.modifySeat v f).body v).angle = F (d.body v).angle := by
  rw [modifySeat, body_modifyBody d (lt_size_of_isSeated hv), if_pos rfl]
  exact Body.angle_mapSeat hv hf

/-- A loop that changes the angles of distinct seats. -/
theorem angle_foldl_modifySeat (F : K → K) {l : List Nat} (hl : l.Nodup)
    (hseated : ∀ v ∈ l, (d.body v).isSeated = true) {v : Nat} (hv : v ∈ l) :
    ((l.foldl (fun d v => d.modifySeat v fun s => { s with angle := F s.angle }) d).body v).angle =
      F (d.body v).angle := by
  let f : Body K → Body K := fun b =>
    { b with role := b.role.mapSeat fun s => { s with angle := F s.angle } }
  have hbody : (l.foldl (fun d v => d.modifySeat v fun s => { s with angle := F s.angle })
      d).body v = if v ∈ l then f (d.body v) else d.body v :=
    body_foldl (f := fun _ => f) (fun d v => d.modifyBody_const v f) hl
      (fun u hu => lt_size_of_isSeated (hseated u hu)) v
  rw [hbody, if_pos hv]
  exact Body.angle_mapSeat (hseated v hv) fun _ => rfl

/-! ## Angles that stay -/

theorem angle_placeMembers (d : Drawing K) (c u : Nat) :
    ((d.placeMembers c).body u).angle = (d.body u).angle :=
  view_placeMembers Body.angle (fun _ _ => rfl) d c u

theorem angles_placeMembers (d : Drawing K) (c : Nat) :
    (d.placeMembers c).angles c = d.angles c :=
  angles_congr (congrArg Ring.order (d.ring_placeMembers c c)) fun v _ => d.angle_placeMembers c v

theorem KeepsRing.angles_eq (h : KeepsRing c d d') : d'.angles c = d.angles c := by
  rw [angles, angles, h.order_eq]
  exact List.map_congr_left h.angle_eq

theorem angles_shift (d : Drawing K) (c : Nat) (delta : Point K) :
    ({ d with bodies := d.bodies.map (·.translate delta) } : Drawing K).angles c = d.angles c :=
  angles_congr rfl fun v _ => view_mapBodies Body.angle d v fun _ => rfl

theorem angles_translateRing (hd : d.skeleton.Sound members) (hc : c < d.rings.size)
    (delta : Point K) : (d.translateRing c delta).angles c = d.angles c := by
  refine angles_congr (congrArg Ring.order (d.ring_translateRing c c delta)) fun v _ => ?_
  rw [body_translateRing hd hc]
  split <;> rfl

/-! ## Turning, exchanging, mirroring, withdrawing -/

theorem angles_rotateRing (hd : d.skeleton.Sound members) (c : Nat) (angle : K) :
    (d.rotateRing c angle).angles c = d.angles c ∨
      (d.rotateRing c angle).angles c =
        (d.angles c).map fun a => normalizeAngle (a + angle) := by
  rw [rotateRing_eq]
  split
  · exact Or.inl rfl
  · right
    have horder : ((d.swung c angle).ring c).order = (d.ring c).order :=
      congrArg Ring.order (d.ring_swung c angle c)
    rw [angles_placeMembers, angles_eq, angles_eq, horder, List.map_map]
    exact List.map_congr_left fun v hv =>
      angle_foldl_modifySeat (fun a => normalizeAngle (a + angle)) (hd.seated.order_nodup c)
        (fun u hu => isSeated_of_mem_order hd hu) hv

theorem order_swapWithNext (hd : d.skeleton.Sound members) (c i : Nat) :
    ((d.swapWithNext c i).ring c).order =
      CyclicOrder.exchange (d.ring c).order i (CyclicOrder.next (d.ring c).order i) := by
  rw [(d.swapWithNext c i).order_eq, skeleton_swapWithNext hd.seated, Skeleton.ring_reorder,
    if_pos rfl]

theorem angle_exchanged {u v : Nat} (hu : (d.body u).isSeated = true)
    (hv : (d.body v).isSeated = true) (c i j w : Nat) :
    ((d.exchanged c i j u v).body w).angle =
      if w = v then (d.body u).angle else if w = u then (d.body v).angle else (d.body w).angle := by
  change (((d.modifySeat u fun s => { s with angle := d.angleOf v, index := _ }).modifySeat v
    fun s => { s with angle := d.angleOf u, index := _ }).body w).angle = _
  rw [← angleOf_eq d u, ← angleOf_eq d v]
  split
  next hwv =>
    subst hwv
    exact angle_modifySeat_self (F := fun _ => d.angleOf u)
      ((d.isSeated_modifySeat u w _).trans hv) fun _ => rfl
  next hwv =>
    rw [modifySeat, body_modifyBody_of_ne _ hwv]
    split
    next hwu =>
      subst hwu
      exact angle_modifySeat_self (F := fun _ => d.angleOf v) hu fun _ => rfl
    next hwu => rw [modifySeat, body_modifyBody_of_ne _ hwu]

/-- An exchange puts two members at each other's angles, and so keeps the list of angles. -/
theorem angles_swapWithNext (hd : d.skeleton.Sound members) (c i : Nat) :
    (d.swapWithNext c i).angles c = d.angles c := by
  rcases d.swapWithNext_cases c i with heq | ⟨j, u, v, hij, rfl, hu, hv, heq⟩
  · rw [heq]
  · have hangle := angle_exchanged (isSeated_of_mem_order hd (List.mem_of_getElem? hu))
      (isSeated_of_mem_order hd (List.mem_of_getElem? hv)) c i
        (CyclicOrder.next (d.ring c).order i)
    have hindex : ∀ {k l w : Nat}, (d.ring c).order[k]? = some w →
        (d.ring c).order[l]? = some w → k = l := fun hk hl =>
      (List.getElem?_inj (List.getElem?_eq_some_iff.mp hk).1 (hd.seated.order_nodup c)).mp
        (hk.trans hl.symm)
    refine List.ext_getElem? fun k => ?_
    rw [angles_eq, angles_eq, List.getElem?_map, List.getElem?_map, order_swapWithNext hd,
      CyclicOrder.getElem?_exchange hu hv, heq]
    simp only [angle_placeMembers, hangle]
    split
    next hk =>
      -- `u` has come to the place of `v`
      rw [hk, hv, Option.map_some, Option.map_some, if_pos rfl]
      split
      next huv => rw [huv]
      next => rfl
    next hkj =>
      split
      next hki => rw [hki, hu, Option.map_some, Option.map_some, if_pos rfl]
      next hki =>
        cases hw : (d.ring c).order[k]? with
        | none => rfl
        | some w =>
            rw [Option.map_some, Option.map_some, if_neg, if_neg]
            · rintro rfl
              exact hki (hindex hw hu)
            · rintro rfl
              exact hkj (hindex hw hv)

/-- Mirroring at the first member turns its angle into itself, and the others follow in the opposite
order. -/
theorem angles_reverseRing (hd : d.skeleton.Sound members) (c : Nat) :
    (d.reverseRing c).angles c = d.angles c ∨
      ∃ a rest, d.angles c = a :: rest ∧ (d.reverseRing c).angles c =
        (a :: rest.reverse).map fun b => normalizeAngle (2.0 * a - b) := by
  have horder : ((d.reverseRing c).ring c).order = CyclicOrder.reverse (d.ring c).order := by
    rw [(d.reverseRing c).order_eq, skeleton_reverseRing hd.seated, Skeleton.ring_reorder,
      if_pos rfl]
  by_cases hshort : (d.ring c).order.length < 3
  · left
    rw [reverseRing_eq, if_pos hshort]
  · right
    have hperm := CyclicOrder.reverse_perm (d.ring c).order
    have hangle : ∀ v ∈ CyclicOrder.reverse (d.ring c).order,
        ((d.reverseRing c).body v).angle =
          normalizeAngle (2.0 * d.angleOf ((d.ring c).order.headD 0) - (d.body v).angle) := by
      intro v hv
      rw [reverseRing_eq, if_neg hshort, angle_placeMembers]
      refine (angle_renumber _ 0 _ v).trans ?_
      exact angle_foldl_modifySeat
        (fun a => normalizeAngle (2.0 * d.angleOf ((d.ring c).order.headD 0) - a))
        (hperm.nodup_iff.mpr (hd.seated.order_nodup c))
        (fun u hu => isSeated_of_mem_order hd (hperm.mem_iff.mp hu)) hv
    rw [angles_eq, angles_eq, horder, List.map_congr_left hangle]
    cases hmembers : (d.ring c).order with
    | nil => simp [hmembers] at hshort
    | cons first rest =>
        refine ⟨_, _, List.map_cons, ?_⟩
        rw [← List.map_reverse, ← List.map_cons (f := fun v => (d.body v).angle), List.map_map,
          ← angleOf_eq]
        rfl

/-- A member that goes inside takes its angle off the list. -/
theorem angles_moveInside (hd : d.skeleton.Sound members) (c v : Nat) :
    ((d.moveInside c v).angles c).Sublist (d.angles c) := by
  rcases d.moveInside_cases c v with heq | ⟨i, seated, inside, hv, heq⟩
  · rw [heq]
  · obtain ⟨hi, hget, -⟩ := List.idxOf?_eq_some_iff.mp hv
    have hring := d.ring_withdrawn (lt_size_of_mem_order (hget ▸ List.getElem_mem hi)) i v
    have hangle : ∀ u ∈ (d.ring c).order.eraseIdx i,
        ((d.withdrawn c i v).body u).angle = (d.body u).angle :=
      fun u hu => angle_withdrawn d c i (ne_of_mem_eraseIdx hd hv hu)
    rw [heq]
    change ((d.withdrawn c i v).angles c).Sublist _
    rw [angles_eq, angles_eq, hring, List.map_congr_left hangle]
    exact (List.eraseIdx_sublist _ i).map _

/-! ## Laying out -/

/-- The angles that spans ask for, not normalized, the first of them at `angle`. Each step turns by
half the spans of the two members it passes between. -/
def turns (radius first : K) : K → List K → List K
  | _, [] => []
  | angle, span :: rest =>
    angle :: turns radius first
      (if 0.0 < radius then angle + (span / 2.0 + rest.headD first / 2.0) / radius else angle) rest

theorem length_turns (radius first angle : K) (spans : List K) :
    (turns radius first angle spans).length = spans.length := by
  induction spans generalizing angle with
  | nil => rfl
  | cons span rest ih => rw [turns, List.length_cons, List.length_cons, ih]

theorem rings_assignAngles (radius first : K) (index : Nat) (angle : K) (seats : List (Nat × K))
    (d : Drawing K) : (assignAngles radius first index angle seats d).rings = d.rings := by
  induction seats generalizing index angle d with
  | nil => rfl
  | cons seat rest ih =>
      rw [assignAngles.eq_def]
      exact ih _ _ _

theorem body_assignAngles_of_notMem (radius first : K) (index : Nat) (angle : K)
    {seats : List (Nat × K)} {u : Nat} (hu : u ∉ seats.map Prod.fst) (d : Drawing K) :
    (assignAngles radius first index angle seats d).body u = d.body u := by
  induction seats generalizing index angle d with
  | nil => rfl
  | cons seat rest ih =>
      obtain ⟨hne, hrest⟩ := not_or.mp (mt List.mem_cons.mpr hu)
      rw [assignAngles.eq_def]
      exact (ih _ _ hrest _).trans (body_modifyBody_of_ne d hne _)

theorem angle_assignAngles (radius first : K) (index : Nat) (angle : K) (seats : List (Nat × K))
    (hl : (seats.map Prod.fst).Nodup)
    (hseated : ∀ v ∈ seats.map Prod.fst, (d.body v).isSeated = true) :
    (seats.map Prod.fst).map
        (fun v => ((assignAngles radius first index angle seats d).body v).angle) =
      (turns radius first angle (seats.map Prod.snd)).map normalizeAngle := by
  induction seats generalizing index angle d with
  | nil => rfl
  | cons seat rest ih =>
      obtain ⟨hseat, hrest⟩ := List.nodup_cons.mp hl
      obtain ⟨hself, hothers⟩ := List.forall_mem_cons.mp hseated
      let f : Seat K → Seat K := fun s => { s with angle := normalizeAngle angle, index := index }
      rw [assignAngles.eq_def]
      refine congrArg₂ List.cons ?_ ?_
      · dsimp only
        rw [body_assignAngles_of_notMem _ _ _ _ hseat]
        exact angle_modifySeat_self (f := f) (F := fun _ => normalizeAngle angle) hself fun _ => rfl
      · refine (ih (d := d.modifySeat seat.1 f) _ _ hrest fun v hv => ?_).trans ?_
        · exact (d.isSeated_modifySeat seat.1 v f).trans (hothers v hv)
        · cases rest <;> rfl

theorem order_spread (hd : d.skeleton.Sound members) (c : Nat) (separation : K) :
    ((d.spread c separation).ring c).order = (d.ring c).order := by
  rw [(d.spread c separation).order_eq, skeleton_spread hd.seated, d.order_eq]

theorem order_arranged (d : Drawing K) (c : Nat) :
    ((d.arranged c).ring c).order = d.arrangedOrder c := by
  rw [(d.arranged c).order_eq, skeleton_arranged, Skeleton.ring_reorder, if_pos rfl]

/-- Laying a ring out deals out the angles that the spans ask for, from that of the first member
on. -/
theorem angles_spread (hd : d.skeleton.Sound members) (c : Nat) (separation : K) :
    (d.spread c separation).angles c =
      (turns (d.spreadRadius c separation) ((d.spans c separation).headD 0.0)
        (d.angleOf ((d.ring c).order.headD 0)) (d.spans c separation)).map normalizeAngle := by
  have hlength : (d.ring c).order.length = (d.spans c separation).length :=
    (List.length_map _).symm
  have hfst : ((d.ring c).order.zip (d.spans c separation)).map Prod.fst = (d.ring c).order :=
    List.map_fst_zip hlength.le
  have hsnd : ((d.ring c).order.zip (d.spans c separation)).map Prod.snd = d.spans c separation :=
    List.map_snd_zip hlength.ge
  have hangle : ∀ u, ((d.spread c separation).body u).angle =
      ((d.turned c separation).body u).angle := by
    intro u
    rw [spread_eq]
    split
    · rfl
    · rw [angle_placeMembers]
      exact view_modifyBody Body.angle _ _ u fun _ => rfl
  have hturned := angle_assignAngles (d := d.modifyRing c fun r =>
      { r with radius := d.spreadRadius c separation })
    (d.spreadRadius c separation) ((d.spans c separation).headD 0.0) 0
    (d.angleOf ((d.ring c).order.headD 0)) ((d.ring c).order.zip (d.spans c separation))
  rw [hfst, hsnd] at hturned
  rw [angles_eq, order_spread hd, List.map_congr_left fun v _ => hangle v]
  exact hturned (hd.seated.order_nodup c) fun v hv => isSeated_of_mem_order hd hv

theorem radius_spread (d : Drawing K) {c v : Nat} (hv : v ∈ (d.ring c).order) (separation : K) :
    ((d.spread c separation).ring c).radius = d.spreadRadius c separation := by
  have hrings : (d.turned c separation).rings =
      (d.modifyRing c fun r => { r with radius := d.spreadRadius c separation }).rings :=
    rings_assignAngles ..
  have hring : (d.turned c separation).ring c =
      { d.ring c with radius := d.spreadRadius c separation } := by
    refine (ring_of_rings hrings c).trans ?_
    refine (ring_modifyRing d (lt_size_of_mem_order hv) _ c).trans ?_
    rw [if_pos rfl]
  rw [spread_eq, if_neg (List.ne_nil_of_mem hv), ring_placeMembers]
  exact congrArg Ring.radius hring

/-- Members keep their sizes when their ring is laid out. -/
theorem diagonal_spread (hd : d.skeleton.Sound members) {v : Nat} (hv : v ∈ (d.ring c).order)
    (separation : K) :
    ((d.spread c separation).body v).box.diagonal = (d.body v).box.diagonal := by
  have hhub : ((d.turned c separation).ring c).hub = (d.ring c).hub :=
    congrArg (fun s => (s.ring c).hub) (skeleton_turned hd.seated c separation)
  have hne : v ≠ (d.ring c).hub := by
    rintro rfl
    have hseated := isSeated_of_mem_order hd hv
    rw [Body.isSeated, role_hub hd (lt_size_of_mem_order hv)] at hseated
    cases hseated
  rw [spread_eq, if_neg (List.ne_nil_of_mem hv),
    view_placeMembers (fun b => b.box.diagonal) fun _ _ => rfl, fitHub,
    body_modifyBody_of_ne _ (hhub ▸ hne)]
  exact congrArg Box.diagonal (box_assignAngles ..)

end Drawing

end RingLayout
