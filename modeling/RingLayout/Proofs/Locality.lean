import RingLayout.Proofs.Hubs

/-! # What a change of one ring leaves alone

Most operations on a ring first change the seats of its members and then place the members. They
write to the record of the ring, its hub and its members only: the records of the other rings and
all other bodies stay as they are.
-/

namespace RingLayout.Drawing

variable {K : Type} [Scalar K]

/-! ## Seats before members are placed -/

/-- A ring with the angles of its members turned. -/
def swung (d : Drawing K) (c : Nat) (angle : K) : Drawing K :=
  (d.ring c).order.foldl
    (fun d v => d.modifySeat v fun s => { s with angle := normalizeAngle (s.angle + angle) }) d

theorem rotateRing_eq (d : Drawing K) (c : Nat) (angle : K) :
    d.rotateRing c angle = if angle == 0.0 then d else (d.swung c angle).placeMembers c := rfl

theorem ring_swung (d : Drawing K) (c : Nat) (angle : K) (b : Nat) :
    (d.swung c angle).ring b = d.ring b :=
  ring_of_rings (foldl_eq_of_step_eq Drawing.rings (fun _ _ => by rfl) _ d) b

/-- Two members of a ring with their seats exchanged. -/
def exchanged (d : Drawing K) (c i j u v : Nat) : Drawing K :=
  ((d.modifySeat u
    fun s => { s with angle := (d.seatOf v).1, index := (d.seatOf v).2 }).modifySeat v
      fun s => { s with angle := (d.seatOf u).1, index := (d.seatOf u).2 }).modifyRing c
        fun r => { r with order := CyclicOrder.exchange r.order i j }

/-- An exchange finds two members at two indices, or it does nothing. -/
theorem swapWithNext_cases (d : Drawing K) (c i : Nat) :
    d.swapWithNext c i = d ∨ ∃ j u v, i ≠ j ∧ j = CyclicOrder.next (d.ring c).order i ∧
      (d.ring c).order[i]? = some u ∧ (d.ring c).order[j]? = some v ∧
      d.swapWithNext c i = (d.exchanged c i j u v).placeMembers c := by
  unfold swapWithNext
  dsimp only
  split
  next u v hu hv =>
    split
    next => exact Or.inl rfl
    next hij => exact Or.inr ⟨_, u, v, hij, rfl, hu, hv, rfl⟩
  next => exact Or.inl rfl

/-- A ring with the seats of its members mirrored. -/
def mirrored (d : Drawing K) (c : Nat) : Drawing K :=
  let axis := d.angleOf ((d.ring c).order.headD 0)
  let order := CyclicOrder.reverse (d.ring c).order
  ((order.foldl
    (fun d v => d.modifySeat v fun s => { s with angle := normalizeAngle (2.0 * axis - s.angle) })
    d).renumber 0 order).modifyRing c fun r => { r with order := order }

theorem reverseRing_eq (d : Drawing K) (c : Nat) : d.reverseRing c =
    if (d.ring c).order.length < 3 then d else (d.mirrored c).placeMembers c := by
  unfold reverseRing mirrored
  split
  next first second third rest horder =>
    rw [if_neg (by rw [horder]; simp), horder]
    rfl
  next hshort =>
    rw [if_pos]
    match horder : (d.ring c).order with
    | [] | [_] | [_, _] => simp
    | a :: b :: c :: rest => exact absurd horder (hshort a b c rest)

/-- A ring without the member at an index, which is inside it. -/
def withdrawn (d : Drawing K) (c i v : Nat) : Drawing K :=
  let order := (d.ring c).order.eraseIdx i
  ((d.renumber i (order.drop i)).modifyRing c
    fun r => { r with order := order, inside := r.inside ++ [v] }).modifyBody v
      fun b => { b with role := .inside c }

theorem moveInside_cases (d : Drawing K) (c v : Nat) :
    d.moveInside c v = d ∨ ∃ i seated inside, (d.ring c).order.idxOf? v = some i ∧
      d.moveInside c v = { d.withdrawn c i v with seated := seated, inside := inside } := by
  unfold moveInside
  dsimp only
  split
  next => exact Or.inl rfl
  next i hv => exact Or.inr ⟨i, _, _, hv, rfl⟩

/-! ## Local changes -/

/-- The second drawing differs from the first in one ring and its bodies at most. -/
structure Local (c : Nat) (d d' : Drawing K) : Prop where
  ring_eq : ∀ b, b ≠ c → d'.ring b = d.ring b
  body_eq : ∀ v, (d.body v).role.ring? ≠ some c → d'.body v = d.body v
  ring?_eq : ∀ v, (d'.body v).role.ring? = (d.body v).role.ring?

namespace Local

variable {c : Nat} {d d' d'' : Drawing K}

theorem refl (c : Nat) (d : Drawing K) : Local c d d :=
  ⟨fun _ _ => rfl, fun _ _ => rfl, fun _ => rfl⟩

theorem trans (h : Local c d d') (h' : Local c d' d'') : Local c d d'' where
  ring_eq b hb := (h'.ring_eq b hb).trans (h.ring_eq b hb)
  body_eq v hv := (h'.body_eq v (h.ring?_eq v ▸ hv)).trans (h.body_eq v hv)
  ring?_eq v := (h'.ring?_eq v).trans (h.ring?_eq v)

/-- A loop over bodies of the ring is local if its steps are. -/
theorem foldl {α : Type} (key : α → Nat) {l : List α} {step : Drawing K → α → Drawing K}
    (hl : ∀ a ∈ l, (d.body (key a)).role.ring? = some c)
    (hstep : ∀ (d' : Drawing K) a, (d'.body (key a)).role.ring? = some c →
      Local c d' (step d' a)) : Local c d (l.foldl step d) := by
  induction l generalizing d with
  | nil => exact refl c d
  | cons a rest ih =>
      obtain ⟨ha, hrest⟩ := List.forall_mem_cons.mp hl
      have hfirst := hstep d a ha
      exact hfirst.trans (ih fun b hb => (hfirst.ring?_eq (key b)).trans (hrest b hb))

end Local

variable {c : Nat} {d : Drawing K}

/-! ## Single changes -/

/-- A number that names no body stands for one on no ring. -/
theorem lt_size_of_ring? {v : Nat} (hv : (d.body v).role.ring? = some c) : v < d.bodies.size := by
  by_contra hsize
  rw [body_eq_blank (Nat.le_of_not_lt hsize)] at hv
  cases hv

theorem local_modifyBody {v : Nat} {f : Body K → Body K} (hv : (d.body v).role.ring? = some c)
    (hf : (f (d.body v)).role.ring? = some c) :
    Local c d (d.modifyBody v f) := by
  have hbody := body_modifyBody d (lt_size_of_ring? hv) f
  constructor
  case ring_eq => exact fun _ _ => rfl
  case body_eq =>
    intro u hu
    rw [hbody, if_neg]
    rintro rfl
    exact hu hv
  case ring?_eq =>
    intro u
    rw [hbody]
    split
    next hu => rw [hf, hu, hv]
    next => rfl

theorem local_modifySeat {v : Nat} {f : Seat K → Seat K} (hf : ∀ s, (f s).ring = s.ring)
    (hv : (d.body v).role.ring? = some c) : Local c d (d.modifySeat v f) := by
  apply local_modifyBody hv
  rw [← hv]
  cases (d.body v).role with
  | seated s => exact congrArg some (hf s)
  | _ => rfl

theorem local_modifyRing (d : Drawing K) (c : Nat) (f : Ring K → Ring K) :
    Local c d (d.modifyRing c f) := by
  refine ⟨fun b hb => ?_, fun _ _ => rfl, fun _ => rfl⟩
  simp only [modifyRing, ring, Array.getD_eq_getD_getElem?, Array.getElem?_modify,
    if_neg (Ne.symm hb)]

/-! ## Operations on a ring -/

theorem local_placeMembers (h : ∀ v ∈ (d.ring c).order, (d.body v).role.ring? = some c) :
    Local c d (d.placeMembers c) :=
  .foldl id h fun _ _ hv => local_modifyBody hv hv

theorem local_fitHub (h : (d.body (d.ring c).hub).role.ring? = some c) :
    Local c d (d.fitHub c) :=
  local_modifyBody h h

theorem local_assignAngles (radius first : K) (index : Nat) (angle : K)
    {members : List (Nat × K)} (h : ∀ p ∈ members, (d.body p.1).role.ring? = some c) :
    Local c d (assignAngles radius first index angle members d) := by
  induction members generalizing index angle d with
  | nil => exact .refl c d
  | cons p rest ih =>
      obtain ⟨hp, hrest⟩ := List.forall_mem_cons.mp h
      have hfirst := local_modifySeat (d := d) (v := p.1)
        (f := fun s => { s with angle := normalizeAngle angle, index := index }) (fun _ => rfl) hp
      rw [assignAngles.eq_def]
      exact hfirst.trans (ih _ _ fun q hq => (hfirst.ring?_eq q.1).trans (hrest q hq))

theorem local_renumber (start : Nat) {order : List Nat}
    (h : ∀ v ∈ order, (d.body v).role.ring? = some c) : Local c d (d.renumber start order) := by
  refine .foldl Prod.fst (fun p hp => h p.1 ?_) fun _ _ hv => local_modifySeat (fun _ => rfl) hv
  exact List.fst_mem_of_mem_zipIdx hp

variable {members : Nat → List Nat}

/-- Members are placed at the end of most operations. -/
theorem Local.placeMembers {d' : Drawing K} (h : Local c d d')
    (hsound : (d'.placeMembers c).skeleton.Sound members) : Local c d (d'.placeMembers c) := by
  rw [skeleton_placeMembers] at hsound
  exact h.trans (local_placeMembers fun v hv => ring?_of_mem_order hsound hv)

variable (h : d.skeleton.Sound members)
include h

theorem local_turned (c : Nat) (separation : K) : Local c d (d.turned c separation) := by
  have hfirst := local_modifyRing d c fun r => { r with radius := d.spreadRadius c separation }
  apply hfirst.trans
  apply local_assignAngles
  intro p hp
  rw [hfirst.ring?_eq]
  exact ring?_of_mem_order h (List.of_mem_zip hp).1

theorem local_spread (c : Nat) (separation : K) : Local c d (d.spread c separation) := by
  have hturned := local_turned h c separation
  have hskeleton := skeleton_turned h.seated c separation
  have hsound : (d.turned c separation).skeleton.Sound members := hskeleton ▸ h
  rw [spread_eq]
  split
  · exact hturned
  next horder =>
    obtain ⟨v, hv⟩ := List.exists_mem_of_ne_nil _ horder
    have hv : v ∈ ((d.turned c separation).ring c).order := by
      change v ∈ ((d.turned c separation).skeleton.ring c).order
      rw [hskeleton]
      exact hv
    have hfit := hturned.trans
      (local_fitHub (congrArg Role.ring? (role_hub hsound (lt_size_of_mem_order hv))))
    apply hfit.placeMembers
    rwa [skeleton_placeMembers, skeleton_fitHub]

theorem sound_arranged (c : Nat) : (d.arranged c).skeleton.Sound members := by
  rw [skeleton_arranged]
  exact h.reorder (d.arrangedOrder_perm c)

theorem local_arrangeRing (c : Nat) (separation : K) :
    Local c d (Run.arrangeRing d c separation) := by
  rw [arrangeRing_eq]
  refine Local.trans (Local.trans (.foldl Prod.fst (fun p hp => ?_) ?_) (local_modifyRing _ c _))
    (local_spread (sound_arranged h c) c separation)
  · apply ring?_of_mem_order h
    exact (d.arrangedOrder_perm c).mem_iff.mp (List.fst_mem_of_mem_zipIdx hp)
  · exact fun _ _ hv => local_modifySeat (fun _ => rfl) hv

theorem local_translateRing {c : Nat} (hc : c < d.rings.size) (delta : Point K) :
    Local c d (d.translateRing c delta) := by
  have hmove : ∀ (d : Drawing K) v, (d.body v).role.ring? = some c →
      Local c d (d.translateBody v delta) :=
    fun _ _ hv => local_modifyBody hv hv
  have hhub := hmove d _ (congrArg Role.ring? (role_hub h hc))
  have horder := hhub.trans (.foldl id
    (fun v hv => (hhub.ring?_eq v).trans (ring?_of_mem_order h hv)) hmove)
  exact horder.trans (.foldl id
    (fun v hv => (horder.ring?_eq v).trans (ring?_of_mem_inside h hv)) hmove)

theorem local_rotateRing (c : Nat) (angle : K) : Local c d (d.rotateRing c angle) := by
  have hskeleton := d.skeleton_rotateRing c angle
  rw [rotateRing_eq] at hskeleton ⊢
  split at hskeleton
  next hzero =>
    rw [if_pos hzero]
    exact .refl c d
  next hzero =>
    rw [if_neg hzero]
    refine Local.placeMembers (.foldl id (fun v hv => ring?_of_mem_order h hv) ?_) (hskeleton ▸ h)
    exact fun _ _ => local_modifySeat fun _ => rfl

theorem sound_swapWithNext (c i : Nat) : (d.swapWithNext c i).skeleton.Sound members := by
  rw [skeleton_swapWithNext h.seated]
  exact h.reorder (CyclicOrder.exchange_perm _ _ _)

theorem local_swapWithNext (c i : Nat) : Local c d (d.swapWithNext c i) := by
  have hsound := sound_swapWithNext h c i
  rcases d.swapWithNext_cases c i with heq | ⟨j, u, v, -, -, hu, hv, heq⟩
  · rw [heq]
    exact .refl c d
  · rw [heq] at hsound ⊢
    refine Local.placeMembers (Local.trans ?_ (local_modifyRing _ c _)) hsound
    have hfirst := local_modifySeat (d := d) (c := c)
      (f := fun s => { s with angle := (d.seatOf v).1, index := (d.seatOf v).2 }) (fun _ => rfl)
      (ring?_of_mem_order h (List.mem_of_getElem? hu))
    refine hfirst.trans (local_modifySeat (fun _ => rfl) ?_)
    rw [hfirst.ring?_eq]
    exact ring?_of_mem_order h (List.mem_of_getElem? hv)

theorem local_reverseRing (c : Nat) : Local c d (d.reverseRing c) := by
  have hsound : (d.reverseRing c).skeleton.Sound members := by
    rw [skeleton_reverseRing h.seated]
    exact h.reorder (CyclicOrder.reverse_perm _)
  rw [reverseRing_eq] at hsound ⊢
  split at hsound
  next hshort =>
    rw [if_pos hshort]
    exact .refl c d
  next hlong =>
    rw [if_neg hlong]
    refine Local.placeMembers (Local.trans ?_ (local_modifyRing _ c _)) hsound
    have hmem : ∀ v ∈ CyclicOrder.reverse (d.ring c).order, (d.body v).role.ring? = some c :=
      fun v hv => ring?_of_mem_order h ((CyclicOrder.reverse_perm _).mem_iff.mp hv)
    have hmirror : Local c d _ :=
      .foldl id hmem fun d' v => local_modifySeat (d := d') (v := v) (f := fun s =>
        { s with angle := normalizeAngle (2.0 * d.angleOf ((d.ring c).order.headD 0) - s.angle) })
        fun _ => rfl
    exact hmirror.trans (local_renumber 0 fun v hv => (hmirror.ring?_eq v).trans (hmem v hv))

theorem local_moveInside (c v : Nat) : Local c d (d.moveInside c v) := by
  rcases d.moveInside_cases c v with heq | ⟨i, seated, inside, hv, heq⟩
  · rw [heq]
    exact .refl c d
  · obtain ⟨hi, hget, -⟩ := List.idxOf?_eq_some_iff.mp hv
    have hnumbers : Local c d (d.renumber i (((d.ring c).order.eraseIdx i).drop i)) :=
      local_renumber i fun u hu => ring?_of_mem_order h
        ((List.eraseIdx_sublist _ _).subset (List.mem_of_mem_drop hu))
    have hleft : Local c d (d.withdrawn c i v) := by
      refine (hnumbers.trans (local_modifyRing _ c _)).trans (local_modifyBody ?_ rfl)
      exact (hnumbers.ring?_eq v).trans (ring?_of_mem_order h (hget ▸ List.getElem_mem hi))
    rw [heq]
    exact ⟨hleft.ring_eq, hleft.body_eq, hleft.ring?_eq⟩

end RingLayout.Drawing
