import RingLayout.Proofs.Motions

/-! # Members in operations

What the operations on a ring do to the bodies of the ring, one by one. Loops over members change
distinct bodies, so each body is changed by its own step only.
-/

namespace RingLayout.Drawing

variable {K : Type} [Scalar K] {members : Nat → List Nat} {d : Drawing K}

/-- A change of a body depends on this body only. -/
theorem modifyBody_const (d : Drawing K) (v : Nat) (f : Body K → Body K) :
    d.modifyBody v f = d.modifyBody v fun _ => f (d.body v) := by
  refine congrArg (fun bodies => { d with bodies := bodies }) ?_
  ext i hi hi'
  · simp
  · simp only [Array.getElem_modify]
    split
    next heq =>
      subst heq
      have hlt : v < d.bodies.size := by simpa using hi
      rw [body, Array.getD_eq_getD_getElem?, Array.getElem?_eq_getElem hlt, Option.getD_some]
    next => rfl

/-- A loop that changes distinct bodies, each by itself, changes all of them. -/
theorem body_foldl {step : Drawing K → Nat → Drawing K} {f : Nat → Body K → Body K}
    (hstep : ∀ d v, step d v = d.modifyBody v fun _ => f v (d.body v)) {l : List Nat}
    (hl : l.Nodup) (hsize : ∀ v ∈ l, v < d.bodies.size) (u : Nat) :
    (l.foldl step d).body u = if u ∈ l then f u (d.body u) else d.body u := by
  induction l generalizing d with
  | nil => rfl
  | cons v rest ih =>
      obtain ⟨hv, hrest⟩ := List.nodup_cons.mp hl
      obtain ⟨hvsize, hrestsize⟩ := List.forall_mem_cons.mp hsize
      have hsame : (step d v).bodies.size = d.bodies.size := by
        rw [hstep]
        exact Array.size_modify
      rw [List.foldl_cons, ih hrest (hsame ▸ hrestsize), hstep, body_modifyBody d hvsize]
      by_cases hu : u = v
      · subst hu
        simp [hv]
      · simp [hu]

/-- Placing the members of a ring moves each of them to its point of the circle. -/
theorem body_placeMembers (hd : d.skeleton.Sound members) (c u : Nat) :
    (d.placeMembers c).body u =
      if u ∈ (d.ring c).order then
        (d.body u).setCenter
          (Point.onCircle (d.ringCenter c) (d.ring c).radius (d.body u).angle)
      else d.body u := by
  refine body_foldl (f := fun _ b => b.setCenter
    (Point.onCircle (d.ringCenter c) (d.ring c).radius b.angle)) (fun d' v => ?_)
    (hd.seated.order_nodup c) (fun v hv => lt_size_of_seated hd.seated hv) u
  rw [setCenter, modifyBody_const, angleOf_eq]

theorem rings_placeMembers (d : Drawing K) (c : Nat) : (d.placeMembers c).rings = d.rings := by
  refine foldl_eq_of_step_eq Drawing.rings (fun d v => ?_) _ d
  rfl

theorem ring_placeMembers (d : Drawing K) (c b : Nat) :
    (d.placeMembers c).ring b = d.ring b :=
  ring_of_rings (d.rings_placeMembers c) b

/-- What moves of the center leave alone, placing the members leaves alone. -/
theorem view_placeMembers {τ : Type} (view : Body K → τ)
    (hview : ∀ b p, view (b.setCenter p) = view b) (d : Drawing K) (c u : Nat) :
    view ((d.placeMembers c).body u) = view (d.body u) := by
  refine foldl_eq_of_step_eq (fun d : Drawing K => view (d.body u)) (fun d v => ?_) _ d
  exact view_modifyBody view d v u fun b => hview b _

theorem box_assignAngles (radius first : K) (index : Nat) (angle : K) (seats : List (Nat × K))
    (d : Drawing K) (u : Nat) :
    ((assignAngles radius first index angle seats d).body u).box = (d.body u).box := by
  induction seats generalizing index angle d with
  | nil => rfl
  | cons seat rest ih =>
      rw [assignAngles.eq_def]
      exact (ih _ _ _).trans (d.box_modifySeat seat.1 u _)

/-- The bodies that move with a ring. -/
def crew (d : Drawing K) (c : Nat) : List Nat :=
  (d.ring c).hub :: ((d.ring c).order ++ (d.ring c).inside)

theorem crew_nodup (hd : d.skeleton.Sound members) {c : Nat} (hc : c < d.rings.size) :
    (d.crew c).Nodup := by
  refine List.nodup_cons.mpr ⟨fun hhub => ?_, hd.seated.order_append_nodup c⟩
  have hplace : d.skeleton.place (d.ring c).hub = .hub c := hd.hubbed.hub c hc
  rcases List.mem_append.mp hhub with horder | hinside
  · have hseat := hd.seated.seat?_of_mem horder
    rw [hplace] at hseat
    cases hseat
  · have hplace' := (hd.seated.inside_iff _ c).mpr hinside
    rw [hplace] at hplace'
    cases hplace'

theorem hub_notMem_order (hd : d.skeleton.Sound members) {c : Nat} (hc : c < d.rings.size) :
    (d.ring c).hub ∉ (d.ring c).order := fun hmem =>
  (List.nodup_cons.mp (crew_nodup hd hc)).1 (List.mem_append_left _ hmem)

theorem lt_size_of_mem_crew (hd : d.skeleton.Sound members) {c : Nat} (hc : c < d.rings.size) :
    ∀ v ∈ d.crew c, v < d.bodies.size := by
  refine List.forall_mem_cons.mpr ⟨?_, fun v hv => ?_⟩
  · exact lt_size_of_ring? (congrArg Role.ring? (role_hub hd hc))
  · rcases List.mem_append.mp hv with horder | hinside
    · exact lt_size_of_ring? (ring?_of_mem_order hd horder)
    · exact lt_size_of_ring? (ring?_of_mem_inside hd hinside)

/-- A ring moves with its crew. -/
theorem body_translateRing (hd : d.skeleton.Sound members) {c : Nat} (hc : c < d.rings.size)
    (delta : Point K) (u : Nat) : (d.translateRing c delta).body u =
      if u ∈ d.crew c then (d.body u).translate delta else d.body u := by
  have hcrew : d.translateRing c delta =
      (d.crew c).foldl (fun d v => d.translateBody v delta) d := by
    rw [crew, List.foldl_cons, List.foldl_append]
    rfl
  rw [hcrew]
  exact body_foldl (f := fun _ b => b.translate delta) (fun d' v => d'.modifyBody_const v _)
    (crew_nodup hd hc) (lt_size_of_mem_crew hd hc) u

theorem rings_translateRing (d : Drawing K) (c : Nat) (delta : Point K) :
    (d.translateRing c delta).rings = d.rings := by
  have hmove : ∀ (l : List Nat) (d : Drawing K),
      (l.foldl (fun d v => d.translateBody v delta) d).rings = d.rings :=
    foldl_eq_of_step_eq Drawing.rings fun _ _ => rfl
  simp only [translateRing, hmove]
  rfl

theorem ring_translateRing (d : Drawing K) (c b : Nat) (delta : Point K) :
    (d.translateRing c delta).ring b = d.ring b :=
  ring_of_rings (d.rings_translateRing c delta) b

/-- A member that is withdrawn is not among the rest. -/
theorem ne_of_mem_eraseIdx (hd : d.skeleton.Sound members) {c i v u : Nat}
    (hv : (d.ring c).order.idxOf? v = some i) (hu : u ∈ (d.ring c).order.eraseIdx i) : u ≠ v := by
  obtain ⟨hi, hget, -⟩ := List.idxOf?_eq_some_iff.mp hv
  rintro rfl
  refine hd.seated.not_mem_order_takeInside (List.getElem?_eq_some_iff.mpr ⟨hi, hget⟩) c ?_
  rw [Skeleton.ring_takeInside, if_pos rfl]
  exact hu

/-- Withdrawing a member moves no box and turns no other member. -/
theorem box_withdrawn (d : Drawing K) (c i v u : Nat) :
    ((d.withdrawn c i v).body u).box = (d.body u).box := by
  unfold withdrawn
  refine (view_modifyBody (f := fun b => { b with role := .inside c }) Body.box _ v u
    fun _ => rfl).trans ?_
  exact d.box_renumber i _ u

theorem angle_withdrawn (d : Drawing K) (c i : Nat) {v u : Nat} (hu : u ≠ v) :
    ((d.withdrawn c i v).body u).angle = (d.body u).angle := by
  unfold withdrawn
  rw [body_modifyBody_of_ne (K := K) _ hu]
  exact d.angle_renumber i _ u

theorem ring_withdrawn (d : Drawing K) {c : Nat} (hc : c < d.rings.size) (i v : Nat) :
    (d.withdrawn c i v).ring c = { d.ring c with
      order := (d.ring c).order.eraseIdx i, inside := (d.ring c).inside ++ [v] } := by
  let order := (d.ring c).order.eraseIdx i
  have hrings := d.rings_renumber i (order.drop i)
  have hring : (d.renumber i (order.drop i)).ring c = d.ring c :=
    ring_of_rings hrings c
  refine (ring_modifyRing _ (hrings ▸ hc) _ c).trans ?_
  rw [if_pos rfl, hring]

end RingLayout.Drawing
