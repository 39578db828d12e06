import RingLayout.Proofs.Angles
import RingLayout.Proofs.Forces
import RingLayout.Proofs.Interior
import RingLayout.Proofs.Motions.Sizes
import RingLayout.Proofs.Pulls

/-! # Moving without bending

In exact arithmetic a motion by forces is gentle, however large the forces are: free bodies and
hubs shift by no more than the temperature allows, and the members on a ring keep their places
around the hub but for one turn that all of them make. Everything else about them stays, the
gathered pulls apart, and all forces are used up.
-/

namespace RingLayout

/-! ## Turning a point about another -/

namespace Point

/-- A point turned about a center. -/
noncomputable def turnedAbout (p center : Point ℝ) (angle : ℝ) : Point ℝ :=
  ⟨center.x + ((p.x - center.x) * Real.cos angle - (p.y - center.y) * Real.sin angle),
    center.y + ((p.x - center.x) * Real.sin angle + (p.y - center.y) * Real.cos angle)⟩

theorem turnedAbout_zero (p center : Point ℝ) : p.turnedAbout center 0 = p := by
  simp [turnedAbout]

theorem turnedAbout_onCircle (center : Point ℝ) (radius start angle : ℝ) :
    (onCircle center radius start).turnedAbout center angle =
      onCircle center radius (start + angle) := by
  obtain ⟨hx, hy⟩ := Point.mk.inj (sub_onCircle center radius start)
  have hcos : Scalar.cos (start + angle) =
      Real.cos start * Real.cos angle - Real.sin start * Real.sin angle := Real.cos_add _ _
  have hsin : Scalar.sin (start + angle) =
      Real.sin start * Real.cos angle + Real.cos start * Real.sin angle := Real.sin_add _ _
  rw [turnedAbout, hx, hy, onCircle, hcos, hsin]
  congr 2 <;> ring

/-- The points of a circle repeat with every full turn. -/
theorem onCircle_normalizeAngle (center : Point ℝ) (radius angle : ℝ) :
    onCircle center radius (normalizeAngle angle) = onCircle center radius angle := by
  have hremainder : normalizeAngle angle =
      angle - toIcoDiv fullTurn_pos 0 angle • (2 * Real.pi) := normalizeAngle_eq angle
  have hcos : Scalar.cos (normalizeAngle angle) = Scalar.cos angle := by
    rw [hremainder]
    exact Real.cos_periodic.sub_zsmul_eq _
  have hsin : Scalar.sin (normalizeAngle angle) = Scalar.sin angle := by
    rw [hremainder]
    exact Real.sin_periodic.sub_zsmul_eq _
  rw [onCircle, hcos, hsin, onCircle]

/-- Two points that differ by no more than a limit along each axis. -/
structure Near (limit : ℝ) (p q : Point ℝ) : Prop where
  x : |q.x - p.x| ≤ limit
  y : |q.y - p.y| ≤ limit

theorem Near.refl {limit : ℝ} (hlimit : 0 ≤ limit) (p : Point ℝ) : Near limit p p := by
  constructor <;> simpa using hlimit

theorem Near.add {limit : ℝ} {delta : Point ℝ} (hx : |delta.x| ≤ limit) (hy : |delta.y| ≤ limit)
    (p : Point ℝ) : Near limit p (p.add delta) := by
  constructor
  · rwa [Point.add, add_sub_cancel_left]
  · rwa [Point.add, add_sub_cancel_left]

theorem sub_add_self (p delta : Point ℝ) : (p.add delta).sub p = delta :=
  congrArg₂ Point.mk (add_sub_cancel_left _ _) (add_sub_cancel_left _ _)

end Point

namespace Drawing

/-! ## What is within the limit -/

theorem abs_limited_le (x : ℝ) {limit : ℝ} (hlimit : 0 ≤ limit) : |limited x limit| ≤ limit := by
  have hlimited : limited x limit = if x < -limit then -limit else if limit < x then limit else x :=
    rfl
  rw [hlimited, abs_le]
  split
  next => exact ⟨le_rfl, by linarith⟩
  next hlow =>
    split
    next => exact ⟨by linarith, le_rfl⟩
    next hhigh => exact ⟨not_lt.mp hlow, not_lt.mp hhigh⟩

theorem limit_eq (cooling : ℝ) : cooling * maxDisplacement = 100 * cooling := by
  rw [maxDisplacement, mul_comm]
  norm_num

theorem near_displacement {limit : ℝ} (hlimit : 0 ≤ limit) (cooling : ℝ) (force p : Point ℝ) :
    Point.Near limit p (p.add (displacement cooling limit force)) :=
  .add (abs_limited_le _ hlimit) (abs_limited_le _ hlimit) p

/-- The angle by which the mean pull turns a ring. -/
noncomputable def swing (d : Drawing ℝ) (cooling limit : ℝ) (c : Nat) : ℝ :=
  let r := d.ring c
  let n := r.order.length
  let meanPull := if 0 < n then Scalar.sum (d.splitForces c).1 / (n : ℝ) else 0.0
  if decide (0.0 < r.radius) && decide (1 < n) then limited (cooling * meanPull) limit / r.radius
  else 0.0

/-- No member on a ring that turns is carried further along the circle than the limit. -/
theorem abs_swing_mul_radius_le (d : Drawing ℝ) (cooling : ℝ) {limit : ℝ} (hlimit : 0 ≤ limit)
    (c : Nat) : |d.swing cooling limit c| * (d.ring c).radius ≤ limit := by
  unfold swing
  dsimp only
  split
  next hturns =>
    rw [Bool.and_eq_true, decide_eq_true_eq, decide_eq_true_eq] at hturns
    have hradius : 0 < (d.ring c).radius := by
      have hpos := hturns.1
      norm_num at hpos
      exact hpos
    rw [abs_div, abs_of_pos hradius, div_mul_cancel₀ _ hradius.ne']
    exact abs_limited_le _ hlimit
  next =>
    norm_num
    exact hlimit

theorem moveRing_eq (cooling limit : ℝ) (gather : Bool) (state : Drawing ℝ × ℝ) (c : Nat) :
    ∃ moved, (moveRing cooling limit gather state c).1 =
      ((state.1.ring c).inside.foldl (moveInsideMember cooling limit
        ((state.1.carried cooling gather c (displacement cooling limit (state.1.splitForces c).2)
          (state.1.swing cooling limit c)).ringCenter c) (state.1.ring c).radius)
        (state.1.carried cooling gather c (displacement cooling limit (state.1.splitForces c).2)
          (state.1.swing cooling limit c), moved)).1 :=
  ⟨_, rfl⟩

variable {members : Nat → List Nat} {d d' : Drawing ℝ} {c v : Nat}

/-! ## Rings -/

theorem skeleton_swung (d : Drawing ℝ) (c : Nat) (angle : ℝ) :
    (d.swung c angle).skeleton = d.skeleton :=
  foldl_eq_of_step_eq skeleton (fun e u => e.skeleton_modifySeat u fun _ => by rfl) _ d

/-- The members on a ring turn about its center, all by the same angle. -/
theorem center_rotateRing (hd : d.skeleton.Sound members) (hcircle : OnCircle d c)
    (hv : v ∈ (d.ring c).order) (angle : ℝ) : ((d.rotateRing c angle).body v).center =
      (d.body v).center.turnedAbout (d.ringCenter c) angle := by
  rw [rotateRing_eq]
  split
  next hzero =>
    have hangle : angle = 0 := by
      have heq : angle = 0.0 := of_decide_eq_true hzero
      norm_num at heq
      exact heq
    rw [hangle, Point.turnedAbout_zero]
  next =>
    have hcenter : (d.swung c angle).ringCenter c = d.ringCenter c := by
      rw [ringCenter, ring_swung]
      exact congrArg Box.center (d.box_swung c angle _)
    have hangle : ((d.swung c angle).body v).angle = normalizeAngle ((d.body v).angle + angle) :=
      angle_foldl_modifySeat (fun a => normalizeAngle (a + angle)) (hd.seated.order_nodup c)
        (fun u hu => isSeated_of_mem_order hd hu) hv
    rw [← skeleton_swung d c angle] at hd
    rw [body_placeMembers hd, ring_swung, if_pos hv, hcenter, hangle, hcircle v hv, angleOf_eq,
      Point.turnedAbout_onCircle, Point.onCircle_normalizeAngle]
    exact Box.center_centered _ _ _

/-- The hub of a ring does not move when the ring turns. -/
theorem ringCenter_rotateRing (hd : d.skeleton.Sound members) (hc : c < d.rings.size)
    (angle : ℝ) : (d.rotateRing c angle).ringCenter c = d.ringCenter c := by
  have hhub := hub_notMem_order hd hc
  rw [ringCenter, ring_of_rings (d.rings_rotateRing c angle)]
  refine congrArg Box.center ?_
  rw [rotateRing_eq]
  split
  · rfl
  · rw [← skeleton_swung d c angle] at hd
    rw [body_placeMembers hd, ring_swung, if_neg hhub, box_swung]

/-- A ring moves rigidly, neither shifting nor turning by more than a limit: its center shifts, and
its members shift likewise and turn about it, all by the same angle. -/
structure MovesRigidly (limit : ℝ) (c : Nat) (d d' : Drawing ℝ) : Prop where
  center_near : Point.Near limit (d.ringCenter c) (d'.ringCenter c)
  exists_angle : ∃ angle, |angle| * (d.ring c).radius ≤ limit ∧
    ∀ v ∈ (d.ring c).order, (d'.body v).center =
      ((d.body v).center.add ((d'.ringCenter c).sub (d.ringCenter c))).turnedAbout
        (d'.ringCenter c) angle

namespace MovesRigidly

variable {e : Drawing ℝ} {limit : ℝ}

theorem before (hkeeps : KeepsRing c e d) (h : MovesRigidly limit c d d') :
    MovesRigidly limit c e d' := by
  obtain ⟨hnear, angle, hangle, hcenter⟩ := h
  rw [hkeeps.ringCenter_eq] at hnear hcenter
  refine ⟨hnear, angle, hkeeps.radius_eq ▸ hangle, fun v hv => ?_⟩
  have hbody : (d.body v).center = (e.body v).center :=
    congrArg Box.center (hkeeps.box_eq v (Or.inr hv))
  rw [hcenter v (hkeeps.order_eq ▸ hv), hbody]

theorem after (h : MovesRigidly limit c d d') (horder : (d'.ring c).order = (d.ring c).order)
    (hkeeps : KeepsRing c d' e) : MovesRigidly limit c d e := by
  obtain ⟨hnear, angle, hangle, hcenter⟩ := h
  rw [← hkeeps.ringCenter_eq] at hnear hcenter
  refine ⟨hnear, angle, hangle, fun v hv => ?_⟩
  rw [← hcenter v hv]
  exact congrArg Box.center (hkeeps.box_eq v (Or.inr (horder.symm ▸ hv)))

end MovesRigidly

/-- A shift and a turn together. -/
theorem movesRigidly_shifted (hd : d.skeleton.Sound members) (hc : c < d.rings.size)
    (hcircle : OnCircle d c) {limit : ℝ} {delta : Point ℝ} {angle : ℝ} (hx : |delta.x| ≤ limit)
    (hy : |delta.y| ≤ limit) (hangle : |angle| * (d.ring c).radius ≤ limit) :
    MovesRigidly limit c d ((d.translateRing c delta).rotateRing c angle) := by
  have hshifted : ∀ u ∈ d.crew c,
      ((d.translateRing c delta).body u).center = (d.body u).center.add delta := by
    intro u hu
    rw [body_translateRing hd hc, if_pos hu]
    exact Box.center_translate _ _
  have hsound : (d.translateRing c delta).skeleton.Sound members := by
    rwa [skeleton_translateRing]
  have hring := d.ring_translateRing c c delta
  have hcenter : (d.translateRing c delta).ringCenter c = (d.ringCenter c).add delta := by
    rw [ringCenter, hring]
    exact hshifted _ List.mem_cons_self
  have hturned : ((d.translateRing c delta).rotateRing c angle).ringCenter c =
      (d.ringCenter c).add delta := by
    rw [ringCenter_rotateRing hsound (by rwa [rings_translateRing]), hcenter]
  constructor
  case center_near =>
    rw [hturned]
    exact .add hx hy _
  case exists_angle =>
    refine ⟨angle, hangle, fun v hv => ?_⟩
    rw [hturned, Point.sub_add_self,
      center_rotateRing hsound (onCircle_translateRing hcircle hd hc delta) (hring.symm ▸ hv),
      hshifted v (List.mem_cons_of_mem _ (List.mem_append_left _ hv)), hcenter]

/-- Members inside move on their own. -/
theorem body_moveInsideMembers_of_notMem (cooling limit : ℝ) (center : Point ℝ) (radius : ℝ)
    {l : List Nat} (hv : v ∉ l) (state : Drawing ℝ × ℝ) :
    (l.foldl (moveInsideMember cooling limit center radius) state).1.body v = state.1.body v := by
  induction l generalizing state with
  | nil => rfl
  | cons u rest ih =>
      obtain ⟨hne, hrest⟩ := not_or.mp (mt List.mem_cons.mpr hv)
      rw [List.foldl_cons, ih hrest]
      exact (body_keepInside_of_ne _ hne _ _).trans (body_modifyBody_of_ne _ hne _)

theorem keepsRing_moveInsideMembers (hd : d.skeleton.Sound members) (hc : c < d.rings.size)
    (cooling limit : ℝ) (center : Point ℝ) (radius moved : ℝ) :
    KeepsRing c d ((d.ring c).inside.foldl (moveInsideMember cooling limit center radius)
      (d, moved)).1 := by
  obtain ⟨hhub, hcrew⟩ := List.nodup_cons.mp (crew_nodup hd hc)
  have hring := ring_of_rings
    (rings_moveInsideMembers cooling limit center radius (d.ring c).inside (d, moved)) c
  refine keepsRing_of_body hring fun v hv => body_moveInsideMembers_of_notMem _ _ _ _ ?_ _
  rcases hv with rfl | hv
  · exact fun hinside => hhub (List.mem_append_right _ hinside)
  · exact List.disjoint_of_nodup_append hcrew hv

theorem SameOn.keepsRing (h : SameOn c d d') (hd : d.skeleton.Sound members)
    (hc : c < d.rings.size) : KeepsRing c d d' := by
  refine keepsRing_of_body h.ring_eq fun v hv => h.body_eq v ((mem_crew_iff hd hc).mp ?_)
  rcases hv with rfl | hv
  · exact List.mem_cons_self
  · exact List.mem_cons_of_mem _ (List.mem_append_left _ hv)

theorem figure_gathered (d : Drawing ℝ) (cooling : ℝ) (gather : Bool) (c : Nat) :
    (if gather then d.pulled cooling c else d).figure = d.figure := by
  split
  · exact figure_gatherPulls cooling _ d
  · rfl

/-- In its turn a ring gathers its pulls, if it is to, shifts and turns, and then the members inside
move. -/
theorem movesRigidly_moveRing {state : Drawing ℝ × ℝ} (hd : state.1.skeleton.Sound members)
    (hc : c < state.1.rings.size) (hcircle : OnCircle state.1 c) (cooling : ℝ) {limit : ℝ}
    (hlimit : 0 ≤ limit) (gather : Bool) :
    MovesRigidly limit c state.1 (moveRing cooling limit gather state c).1 := by
  obtain ⟨moved, heq⟩ := moveRing_eq cooling limit gather state c
  let delta := displacement cooling limit (state.1.splitForces c).2
  let angle := state.1.swing cooling limit c
  let gathered := if gather then state.1.pulled cooling c else state.1
  have hfigure : gathered.figure = state.1.figure := state.1.figure_gathered cooling gather c
  have hgathered : KeepsRing c state.1 gathered := keepsRing_of_figure hfigure c
  have hskeleton : gathered.skeleton = state.1.skeleton := congrArg Figure.skeleton hfigure
  have hshifted : MovesRigidly limit c gathered (state.1.carried cooling gather c delta angle) := by
    refine movesRigidly_shifted (hskeleton.symm ▸ hd) ?_ (hgathered.onCircle hcircle)
      (abs_limited_le _ hlimit) (abs_limited_le _ hlimit) ?_
    · exact hc.trans_eq (congrArg Skeleton.ringCount hskeleton).symm
    · rw [hgathered.radius_eq]
      exact state.1.abs_swing_mul_radius_le cooling hlimit c
  have hring : (state.1.carried cooling gather c delta angle).ring c = state.1.ring c :=
    ring_of_rings (rings_carried state.1 cooling gather c delta angle) c
  have hcarried : (state.1.carried cooling gather c delta angle).skeleton.Sound members := by
    rwa [skeleton_carried]
  have hsize : c < (state.1.carried cooling gather c delta angle).rings.size := by
    rwa [rings_carried]
  have hinside := keepsRing_moveInsideMembers hcarried hsize cooling limit
    ((state.1.carried cooling gather c delta angle).ringCenter c) (state.1.ring c).radius moved
  rw [hring, ← heq] at hinside
  exact (hshifted.before hgathered).after (congrArg Ring.order hring) hinside

/-- Seen from one ring, all others move without it, and clearing forces moves nothing. -/
theorem movesRigidly_move (hd : d.skeleton.Sound members) (hc : c < d.rings.size)
    (hcircle : OnCircle d c) {cooling : ℝ} (hlimit : 0 ≤ cooling * maxDisplacement)
    (gather : Bool) : MovesRigidly (cooling * maxDisplacement) c d (d.move cooling gather).1 := by
  obtain ⟨state, hskeleton, hbefore, hafter⟩ := exists_turn_move hd hc cooling gather
  have hstate : state.1.skeleton.Sound members := hskeleton.symm ▸ hd
  have hsize : c < state.1.rings.size := hc.trans_eq (congrArg Skeleton.ringCount hskeleton).symm
  have hkeeps := hbefore.keepsRing hd hc
  let moved := (moveRing cooling (cooling * maxDisplacement) gather state c).1
  have hmoved : MovesRigidly (cooling * maxDisplacement) c d moved :=
    (movesRigidly_moveRing hstate hsize (hkeeps.onCircle hcircle) cooling hlimit gather).before
      hkeeps
  have hring : moved.ring c = d.ring c :=
    (ring_of_rings (rings_moveRing cooling _ gather state c) c).trans hbefore.ring_eq
  have hsound : moved.unforced.skeleton.Sound members := by
    rw [skeleton_unforced, skeleton_moveRing]
    exact hstate
  have hcleared : KeepsRing c moved moved.unforced := keepsRing_of_figure moved.figure_unforced c
  have hsize' : c < moved.unforced.rings.size :=
    (rings_moveRing cooling _ gather state c).symm ▸ hsize
  exact (hmoved.after (congrArg Ring.order hring) hcleared).after (congrArg Ring.order hring)
    (hafter.keepsRing hsound hsize')

/-! ## Bodies on no ring -/

theorem modifyBody_eq_self (d : Drawing ℝ) (v : Nat) {f : Body ℝ → Body ℝ}
    (hf : f (d.body v) = d.body v) : d.modifyBody v f = d := by
  have hid : d.modifyBody v id = d := by
    refine congrArg (fun bodies => { d with bodies := bodies }) ?_
    ext i hi hi'
    · simp
    · simp [Array.getElem_modify]
  rw [modifyBody_const, hf]
  exact (d.modifyBody_const v id).symm.trans hid

/-- A free body that has moved by its forces. Hubs move with their rings. -/
noncomputable def driven (cooling limit : ℝ) (b : Body ℝ) : Body ℝ :=
  if b.isHub then b else b.translate (displacement cooling limit b.totalForce)

theorem moveRoot_eq (cooling limit : ℝ) (state : Drawing ℝ × ℝ) (v : Nat) :
    (moveRoot cooling limit state v).1 =
      state.1.modifyBody v fun _ => driven cooling limit (state.1.body v) := by
  unfold moveRoot driven
  dsimp only
  split
  next => exact (modifyBody_eq_self _ v rfl).symm
  next => exact state.1.modifyBody_const v _

theorem body_moveRoots (hd : d.skeleton.Sound members) (cooling limit total : ℝ) (v : Nat) :
    (d.roots.foldl (moveRoot cooling limit) (d, total)).1.body v =
      if v ∈ d.roots then driven cooling limit (d.body v) else d.body v := by
  have hparts := hd.seated.parts_perm.nodup_iff.mpr List.nodup_range
  have hnodup : d.roots.Nodup := (List.nodup_append.mp (List.nodup_append.mp hparts).1).2.1
  have hfold : d.roots.foldl (fun e u => e.modifyBody u fun _ => driven cooling limit (e.body u))
      (d, total).1 = (d.roots.foldl (moveRoot cooling limit) (d, total)).1 :=
    List.foldl_hom Prod.fst fun state u => (moveRoot_eq cooling limit state u).symm
  rw [← hfold]
  exact body_foldl (f := fun _ => driven cooling limit) (fun _ _ => rfl) hnodup
    (fun u hu => (active_of_mem_roots hd hu).1) v

/-- A body on no ring moves by its own forces if it is a root, and else not at all. -/
theorem body_move_of_ring?_eq_none (hd : d.skeleton.Sound members)
    (hv : (d.body v).role.ring? = none) (cooling : ℝ) (gather : Bool) :
    (d.move cooling gather).1.body v =
      (if v ∈ d.roots then driven cooling (cooling * maxDisplacement) (d.body v)
        else d.body v).clearForces := by
  let limit := cooling * maxDisplacement
  let start := d.roots.foldl (moveRoot cooling limit) (d, 0.0)
  have hskeleton : start.1.skeleton = d.skeleton :=
    foldl_eq_of_step_eq (fun s : Drawing ℝ × ℝ => s.1.skeleton) (skeleton_moveRoot cooling limit)
      d.roots (d, 0.0)
  -- the rings move without the body, for it is on none of them all the time
  have hrings : ∀ state : Drawing ℝ × ℝ, state = d.ringNumbers.foldl
      (moveRing cooling limit gather) start → state.1.skeleton = d.skeleton ∧
        state.1.body v = start.1.body v := by
    rintro state rfl
    refine List.foldlRecOn (motive := fun s : Drawing ℝ × ℝ =>
      s.1.skeleton = d.skeleton ∧ s.1.body v = start.1.body v) d.ringNumbers
        (moveRing cooling limit gather) ⟨hskeleton, rfl⟩ ?_
    rintro s ⟨hs, hbody⟩ c hc
    refine ⟨(skeleton_moveRing cooling limit gather s c).trans hs, ?_⟩
    have hsize : c < s.1.rings.size :=
      (List.mem_range.mp hc).trans_eq (congrArg Skeleton.ringCount hs).symm
    have hfree : (s.1.body v).role.ring? = none := by
      rw [← hv, ← ring?_wiring, ← ring?_wiring]
      exact congrArg (fun t => (t.place v).ring?) hs
    rw [← hbody]
    refine (local_moveRing cooling limit gather (hs.symm ▸ hd) hsize).body_eq v ?_
    rw [hfree]
    exact nofun
  have hmove : (d.move cooling gather).1 =
      (d.ringNumbers.foldl (moveRing cooling limit gather) start).1.unforced := rfl
  rw [hmove, body_unforced, (hrings _ rfl).2, body_moveRoots hd]

/-! ## Sizes -/

theorem size_moveInsideMember (cooling limit : ℝ) (center : Point ℝ) (radius : ℝ)
    (state : Drawing ℝ × ℝ) (u v : Nat) :
    ((moveInsideMember cooling limit center radius state u).1.body v).box.size =
      (state.1.body v).box.size := by
  refine Eq.trans ?_ (state.1.size_translateBody u v
    (displacement cooling limit (state.1.body u).totalForce))
  unfold moveInsideMember keepInside
  dsimp only
  split
  · exact view_modifyBody (fun b => b.box.size) _ u v fun _ => rfl
  · rfl

theorem size_moveRing (cooling limit : ℝ) (gather : Bool) (state : Drawing ℝ × ℝ) (c v : Nat) :
    ((moveRing cooling limit gather state c).1.body v).box.size = (state.1.body v).box.size := by
  obtain ⟨moved, heq⟩ := moveRing_eq cooling limit gather state c
  rw [heq, foldl_eq_of_step_eq (fun s : Drawing ℝ × ℝ => (s.1.body v).box.size)
    fun s u => size_moveInsideMember cooling limit _ _ s u v]
  change ((state.1.carried cooling gather c _ _).body v).box.size = _
  rw [carried, size_rotateRing, size_translateRing]
  exact congrArg (fun f => (f.box v).size) (state.1.figure_gathered cooling gather c)

/-- Motion does not change the size of anything. -/
theorem size_move (cooling : ℝ) (gather : Bool) (d : Drawing ℝ) (v : Nat) :
    ((d.move cooling gather).1.body v).box.size = (d.body v).box.size := by
  have hroot : ∀ (s : Drawing ℝ × ℝ) u,
      ((moveRoot cooling (cooling * maxDisplacement) s u).1.body v).box.size =
        (s.1.body v).box.size := by
    intro s u
    unfold moveRoot
    dsimp only
    split
    · rfl
    · exact s.1.size_translateBody u v _
  let start := d.roots.foldl (moveRoot cooling (cooling * maxDisplacement)) (d, 0.0)
  let final := d.ringNumbers.foldl (moveRing cooling (cooling * maxDisplacement) gather) start
  calc (final.1.unforced.body v).box.size
      = (final.1.body v).box.size := congrArg (fun b => b.box.size) (body_unforced final.1 v)
    _ = (start.1.body v).box.size := foldl_eq_of_step_eq
        (fun s : Drawing ℝ × ℝ => (s.1.body v).box.size)
        (fun s c => size_moveRing cooling _ gather s c v) _ _
    _ = (d.body v).box.size := foldl_eq_of_step_eq
        (fun s : Drawing ℝ × ℝ => (s.1.body v).box.size) hroot _ _

/-! ## All that a motion does -/

/-- Whatever is done to a drawing in the course of a layout: an operation, another stretching of the
links, or a change of the forces. -/
inductive Change (d : Drawing ℝ) : Drawing ℝ → Prop
  | operation (op : Operation ℝ) : Change d (op.apply d)
  | lengths (o : Options ℝ) (factor : ℝ) : Change d (d.assignIdealLengths o factor)
  | forces {d' : Drawing ℝ} (h : d'.unforced = d.unforced) : Change d d'

theorem Change.sound (h : Change d d') (hd : d.skeleton.Sound members) :
    d'.skeleton.Sound members := by
  cases h with
  | operation op => exact (Operation.evolves_apply hd op).sound
  | lengths o factor => rwa [skeleton_assignIdealLengths]
  | forces h => rwa [← skeleton_unforced, h, skeleton_unforced]

/-- What a motion by forces does to a drawing with its members on their circles, and what it leaves
alone. -/
structure MovesGently (cooling : ℝ) (gather : Bool) (d d' : Drawing ℝ) : Prop where
  free_near : ∀ v ∈ d.simulated, (d.body v).role.ring? = none →
    Point.Near (100 * cooling) (d.body v).center (d'.body v).center
  rings_rigid : ∀ c ∈ d.ringNumbers, MovesRigidly (100 * cooling) c d d'
  /-- The orders, the indices and the parts of all bodies are the same. -/
  skeleton_eq : d'.skeleton = d.skeleton
  /-- So are the radii and the flags of rings and of seats. -/
  sameRules : SameRules d d'
  size_eq : ∀ v, (d'.body v).box.size = (d.body v).box.size
  tiled_eq : ∀ v ∈ d.tiled, d'.body v = (d.body v).clearForces
  pull_eq : ∀ c, ∀ v ∈ (d.ring c).order, (d'.body v).pull =
    if gather then (d.body v).pull + cooling * d.pullAlong c v else (d.body v).pull
  /-- A member is pulled by all its forces, as far as they act along the circle. -/
  pullAlong_eq : ∀ c, ∀ v ∈ (d.ring c).order, 1e-9 ≤ (d.ring c).radius →
    d.pullAlong c v = forceAlong (d.body v) (d.angleOf v)
  pullAlong_eq_zero : ∀ c, ∀ v ∈ (d.ring c).order, |(d.ring c).radius| < 1e-9 →
    d.pullAlong c v = 0
  spring_eq : ∀ v, (d'.body v).spring = ⟨0, 0⟩
  repulsion_eq : ∀ v, (d'.body v).repulsion = ⟨0, 0⟩
  gravitation_eq : ∀ v, (d'.body v).gravitation = ⟨0, 0⟩

theorem movesGently_move (hd : d.skeleton.Sound members) (hcircle : ∀ c, OnCircle d c)
    {cooling : ℝ} (hcooling : 0 < cooling) (gather : Bool) :
    MovesGently cooling gather d (d.move cooling gather).1 := by
  have hlimit : 0 ≤ cooling * (maxDisplacement : ℝ) := by
    rw [limit_eq]
    positivity
  obtain ⟨final, hfinal⟩ : ∃ e : Drawing ℝ, (d.move cooling gather).1 = e.unforced := ⟨_, rfl⟩
  constructor
  case free_near =>
    intro v _ hfree
    rw [body_move_of_ring?_eq_none hd hfree, ← limit_eq]
    split
    next =>
      unfold driven
      split
      next => exact .refl hlimit _
      next =>
        have hcenter : ∀ delta : Point ℝ, ((d.body v).translate delta).clearForces.center =
            (d.body v).center.add delta := Box.center_translate _
        rw [hcenter]
        exact near_displacement hlimit cooling _ _
    next => exact .refl hlimit _
  case rings_rigid =>
    intro c hc
    rw [← limit_eq]
    exact movesRigidly_move hd (List.mem_range.mp hc) (hcircle c) hlimit gather
  case skeleton_eq => exact skeleton_move cooling gather d
  case sameRules => exact sameRules_move cooling gather d
  case size_eq => exact size_move cooling gather d
  case tiled_eq =>
    intro v hv
    have hfree : (d.body v).role.ring? = none := by
      rw [← ring?_wiring]
      exact congrArg Place.ring? (hd.hubbed.tile v hv)
    have hroot : v ∉ d.roots := fun hroot => (active_of_mem_roots hd hroot).2 hv
    rw [body_move_of_ring?_eq_none hd hfree, if_neg hroot]
  case pull_eq =>
    intro c v hv
    cases gather with
    | true => exact pull_move hd hv cooling
    | false =>
        have hkeeps : Keeps Body.pull d (d.move cooling false).1 :=
          keeps_move steady_pull cooling (fun h => Bool.noConfusion h) d
        exact hkeeps.view_eq v
  case pullAlong_eq => exact fun c v hv hradius => (hcircle c).pullAlong_eq hv hradius
  case pullAlong_eq_zero => exact fun c v hv hradius => (hcircle c).pullAlong_eq_zero hv hradius
  all_goals
    intro v
    rw [hfinal, body_unforced]
    exact Box.origin_real

/-- So it is in all states that operations lead to, whatever the forces are. -/
theorem movesGently_of_changes {g : Graph ℝ} {o : Options ℝ} {start : Drawing ℝ}
    (hstart : build g o = .ok start) (hchanges : Relation.ReflTransGen Change start d)
    (hcircle : ∀ c, OnCircle d c) {cooling : ℝ} (hcooling : 0 < cooling) (gather : Bool) :
    MovesGently cooling gather d (d.move cooling gather).1 := by
  have hsound := reflTransGen_induct (fun _ _ he h => Change.sound h he) hchanges
    (sound_build hstart) (P := fun e => e.skeleton.Sound _) (sound_build hstart)
    fun _ _ _ he h => h.sound he
  exact movesGently_move hsound hcircle hcooling gather

/-- Two members on a ring, laid out and pulled at. -/
theorem movesGently_twoParts : ∃ start d : Drawing ℝ, build twoParts pairRing = .ok start ∧
    Relation.ReflTransGen Change start d ∧ (∀ c, OnCircle d c) ∧ (0 : ℝ) < 1 / 2 ∧
      MovesGently (1 / 2) true d (d.move (1 / 2) true).1 := by
  obtain ⟨start, hstart, hsize⟩ : ∃ start : Drawing ℝ, build twoParts pairRing = .ok start ∧
      start.rings.size = 1 := ⟨_, build_twoParts, rfl⟩
  have hsound := sound_build hstart
  obtain ⟨arranged, harranged⟩ : ∃ e, e = (Operation.arrange 0 10).apply start := ⟨_, rfl⟩
  let settings : ForceSettings ℝ := .ofOptions pairRing
  have hfirst : Change start arranged := harranged ▸ .operation _
  have hchanges : Relation.ReflTransGen Change start (gatherForces settings true arranged) :=
    .tail (.single hfirst) (.operation (.gatherForces settings true))
  have hevolves : Skeleton.Evolves _ start.skeleton arranged.skeleton :=
    harranged ▸ Operation.evolves_apply hsound _
  have hcount : arranged.rings.size = start.rings.size := hevolves.ringCount_eq
  have hcircle : ∀ c, OnCircle (gatherForces settings true arranged) c := by
    intro c
    refine (keepsRing_of_figure (figure_gatherForces settings true arranged) c).onCircle ?_
    by_cases hc : c = 0
    · rw [hc, harranged]
      exact onCircle_arrangeRing hsound 0 10
    -- there is no other ring
    · intro v hv
      have hlt : c < arranged.rings.size := lt_size_of_mem_order hv
      rw [hcount, hsize] at hlt
      exact absurd (Nat.lt_one_iff.mp hlt) hc
  exact ⟨start, _, hstart, hchanges, hcircle, by norm_num,
    movesGently_of_changes hstart hchanges hcircle (by norm_num) true⟩

end Drawing

end RingLayout
