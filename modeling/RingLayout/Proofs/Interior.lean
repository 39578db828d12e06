import RingLayout.Proofs.Circles
import RingLayout.Proofs.Packing
import RingLayout.Proofs.Relocation
import RingLayout.Proofs.Tiling

/-! # Members inside rings

In exact arithmetic the members inside a ring are drawn back to where their boxes keep clear of
the circle: whenever members have gone inside and the ring has been laid out anew, and whenever
the ring has moved. Whatever else moves the ring takes them along.
-/

namespace RingLayout

theorem Point.distance_add_add (p q delta : Point ℝ) :
    (p.add delta).distance (q.add delta) = p.distance q := by
  have hsub : (p.add delta).sub (q.add delta) = p.sub q :=
    congrArg₂ Point.mk (add_sub_add_right_eq_sub _ _ _) (add_sub_add_right_eq_sub _ _ _)
  rw [distance, hsub, distance]

/-- On the way from a center to a point the distance grows in proportion. -/
theorem Point.distance_add_scale (center p : Point ℝ) {share : ℝ} (hshare : 0 ≤ share) :
    (center.add ((p.sub center).scale share)).distance center = share * p.distance center := by
  have hx : (center.add ((p.sub center).scale share)).x - center.x = (p.x - center.x) * share :=
    add_sub_cancel_left _ _
  have hy : (center.add ((p.sub center).scale share)).y - center.y = (p.y - center.y) * share :=
    add_sub_cancel_left _ _
  refine (sq_eq_sq₀ (distance_nonneg _ _) (mul_nonneg hshare (distance_nonneg _ _))).mp ?_
  rw [mul_pow, distance_sq, distance_sq, hx, hy]
  ring

/-- How far from the center of a circle a box may have its own center, to keep clear of the
circle. -/
noncomputable def Box.reach (b : Box ℝ) (radius : ℝ) : ℝ := max 0 (0.9 * radius - b.diagonal / 2.0)

namespace Drawing

variable {members : Nat → List Nat} {d d' : Drawing ℝ} {b c : Nat}

/-- The members inside a ring keep clear of its circle. -/
def KeptInside (d : Drawing ℝ) (c : Nat) : Prop :=
  ∀ v ∈ (d.ring c).inside,
    (d.body v).center.distance (d.ringCenter c) ≤ (d.body v).box.reach (d.ring c).radius

theorem keptInside_of_nil (h : (d.ring c).inside = []) : KeptInside d c := by
  intro v hv
  rw [h] at hv
  exact absurd hv List.not_mem_nil

/-! ## What keeps members inside -/

/-- A ring that moves with its hub and all inside it. -/
theorem KeptInside.moved (h : KeptInside d c) (delta : Point ℝ)
    (hhub : (d'.ring c).hub = (d.ring c).hub) (hinside : (d'.ring c).inside = (d.ring c).inside)
    (hradius : (d'.ring c).radius = (d.ring c).radius)
    (hbox : ∀ v, v = (d.ring c).hub ∨ v ∈ (d.ring c).inside →
      (d'.body v).box = (d.body v).box.translate delta) : KeptInside d' c := by
  intro v hv
  rw [hinside] at hv
  have hcenter : ∀ u, u = (d.ring c).hub ∨ u ∈ (d.ring c).inside →
      (d'.body u).center = (d.body u).center.add delta := by
    intro u hu
    rw [Body.center, hbox u hu, Box.center_translate]
    rfl
  rw [ringCenter, hhub, hcenter v (Or.inr hv), hcenter _ (Or.inl rfl), Point.distance_add_add,
    hbox v (Or.inr hv), hradius]
  exact h v hv

/-- A ring whose hub and members inside are where they were. -/
theorem KeptInside.congr (h : KeptInside d c) (hhub : (d'.ring c).hub = (d.ring c).hub)
    (hinside : (d'.ring c).inside = (d.ring c).inside)
    (hradius : (d'.ring c).radius = (d.ring c).radius)
    (hbox : ∀ v, v = (d.ring c).hub ∨ v ∈ (d.ring c).inside →
      (d'.body v).box = (d.body v).box) : KeptInside d' c := by
  refine h.moved ⟨0, 0⟩ hhub hinside hradius fun v hv => ?_
  rw [hbox v hv, Box.translate_zero]

theorem KeptInside.of_figure (h : KeptInside d c) (hfigure : d'.figure = d.figure) :
    KeptInside d' c := by
  apply h.congr
  case hhub => exact congrArg (fun f => (f.skeleton.ring c).hub) hfigure
  case hinside => exact congrArg (fun f => (f.skeleton.ring c).inside) hfigure
  case hradius => exact congrArg (fun f => f.radius c) hfigure
  case hbox => exact fun v _ => congrArg (fun f => f.box v) hfigure

/-- The hub of a ring and the members inside belong to it. -/
theorem ring?_of_hub_or_inside (hd : d.skeleton.Sound members) {v u : Nat}
    (hv : v ∈ (d.ring c).inside) (hu : u = (d.ring c).hub ∨ u ∈ (d.ring c).inside) :
    (d.body u).role.ring? = some c := by
  rcases hu with rfl | hu
  · exact congrArg Role.ring? (role_hub hd (lt_size_of_mem_inside hv))
  · exact ring?_of_mem_inside hd hu

theorem KeptInside.sameOn (h : KeptInside d c) (hd : d.skeleton.Sound members)
    (hsame : SameOn c d d') : KeptInside d' c := by
  intro v hv
  have hv' : v ∈ (d.ring c).inside := by rwa [hsame.ring_eq] at hv
  refine h.congr ?_ ?_ ?_ (fun u hu => ?_) v hv
  · rw [hsame.ring_eq]
  · rw [hsame.ring_eq]
  · rw [hsame.ring_eq]
  · rw [hsame.body_eq u (ring?_of_hub_or_inside hd hv' hu)]

/-! ## Drawing members back -/

theorem body_keepInside_of_ne (d : Drawing ℝ) {v u : Nat} (hne : u ≠ v) (center : Point ℝ)
    (radius : ℝ) : (d.keepInside v center radius).body u = d.body u := by
  unfold keepInside
  dsimp only
  split
  · exact body_modifyBody_of_ne _ hne _
  · rfl

theorem bodies_size_keepInside (d : Drawing ℝ) (v : Nat) (center : Point ℝ) (radius : ℝ) :
    (d.keepInside v center radius).bodies.size = d.bodies.size :=
  congrArg Skeleton.bodyCount (d.skeleton_keepInside v center radius)

/-- A member that has been drawn back keeps clear of the circle. -/
theorem distance_keepInside_le {v : Nat} (hv : v < d.bodies.size) (center : Point ℝ)
    (radius : ℝ) : ((d.keepInside v center radius).body v).center.distance center ≤
      ((d.keepInside v center radius).body v).box.reach radius := by
  have hlimit : Scalar.maxNum (insideShare * radius - (d.body v).box.diagonal / 2.0) 0.0 =
      (d.body v).box.reach radius := by
    rw [Scalar.maxNum_real, Box.reach, insideShare]
    norm_num
  have hreach : 0 ≤ (d.body v).box.reach radius := le_max_left _ _
  unfold keepInside
  dsimp only
  rw [hlimit]
  split
  next hfar =>
    have hpos : 0 < (d.body v).center.distance center := hreach.trans_lt hfar
    have hshare : (0.0 : ℝ) < ((d.body v).center.sub center).norm := by
      norm_num
      exact hpos
    rw [setCenter, body_modifyBody d hv, if_pos rfl, if_pos hshare]
    change (Box.centered _ _ _).center.distance center ≤ (d.body v).box.reach radius
    have hscaled := Point.distance_add_scale center (d.body v).center (div_nonneg hreach hpos.le)
    rw [Box.center_centered]
    exact (hscaled.trans (div_mul_cancel₀ _ hpos.ne')).le
  next hnear => exact not_lt.mp hnear

/-- A loop in which every body has its own step: what the step brings about lasts. -/
theorem foldl_settles {σ : Type} (part : σ → Drawing ℝ) {step : σ → Nat → σ} {P : Body ℝ → Prop}
    (hother : ∀ s v u, u ≠ v → (part (step s v)).body u = (part s).body u)
    (hsize : ∀ s v, (part (step s v)).bodies.size = (part s).bodies.size)
    (hown : ∀ s v, v < (part s).bodies.size → P ((part (step s v)).body v)) {l : List Nat} {s : σ}
    (hl : ∀ v ∈ l, v < (part s).bodies.size) :
    (∀ u, u ∉ l → (part (l.foldl step s)).body u = (part s).body u) ∧
      ∀ v ∈ l, P ((part (l.foldl step s)).body v) := by
  induction l generalizing s with
  | nil => exact ⟨fun _ _ => rfl, by simp⟩
  | cons v rest ih =>
      obtain ⟨hv, hrest⟩ := List.forall_mem_cons.mp hl
      have hrest' : ∀ u ∈ rest, u < (part (step s v)).bodies.size :=
        fun u hu => (hsize s v).symm ▸ hrest u hu
      obtain ⟨hleft, hsettled⟩ := ih hrest'
      refine ⟨fun u hu => ?_, List.forall_mem_cons.mpr ⟨?_, hsettled⟩⟩
      · rw [List.foldl_cons, hleft u (List.not_mem_of_not_mem_cons hu),
          hother s v u (List.ne_of_not_mem_cons hu)]
      · by_cases hagain : v ∈ rest
        · exact hsettled v hagain
        · rw [List.foldl_cons, hleft v hagain]
          exact hown s v hv

/-- Drawing all members of a ring back keeps them inside, if the loop draws them back to the
circle of the ring and changes nothing else. -/
theorem keptInside_foldl {σ : Type} (part : σ → Drawing ℝ) {step : σ → Nat → σ} {s : σ}
    (hd : (part s).skeleton.Sound members)
    (hrings : ∀ s v, (part (step s v)).rings = (part s).rings)
    (hother : ∀ s v u, u ≠ v → (part (step s v)).body u = (part s).body u)
    (hsize : ∀ s v, (part (step s v)).bodies.size = (part s).bodies.size)
    (hown : ∀ s' v, v < (part s').bodies.size →
      ((part (step s' v)).body v).center.distance ((part s).ringCenter c) ≤
        ((part (step s' v)).body v).box.reach ((part s).ring c).radius) :
    KeptInside (part (((part s).ring c).inside.foldl step s)) c := by
  have hmembers : ∀ v ∈ ((part s).ring c).inside, v < (part s).bodies.size :=
    fun v hv => lt_size_of_ring? (ring?_of_mem_inside hd hv)
  obtain ⟨hleft, hsettled⟩ := foldl_settles part (P := fun b =>
    b.center.distance ((part s).ringCenter c) ≤ b.box.reach ((part s).ring c).radius)
    hother hsize hown hmembers
  have hring : (part (((part s).ring c).inside.foldl step s)).ring c = (part s).ring c :=
    ring_of_rings (foldl_eq_of_step_eq (fun s => (part s).rings) hrings _ s) c
  intro v hv
  rw [hring] at hv
  -- the center of the circle is that of the hub, which is not inside
  have hhub : ((part s).ring c).hub ∉ ((part s).ring c).inside := fun hmem =>
    (List.nodup_cons.mp (crew_nodup hd (lt_size_of_mem_inside hmem))).1
      (List.mem_append_right _ hmem)
  rw [ringCenter, hring, hleft _ hhub]
  exact hsettled v hv

/-! ## Motion -/

theorem keptInside_moveRing (cooling limit : ℝ) (gather : Bool) {state : Drawing ℝ × ℝ}
    (hd : state.1.skeleton.Sound members) (c : Nat) :
    KeptInside (moveRing cooling limit gather state c).1 c := by
  obtain ⟨delta, angle, moved, heq⟩ := exists_moveRing_eq cooling limit gather state c
  have hring : (state.1.carried cooling gather c delta angle).ring c = state.1.ring c :=
    ring_of_rings (rings_carried state.1 cooling gather c delta angle) c
  rw [heq, ← hring]
  apply keptInside_foldl (s := (state.1.carried cooling gather c delta angle, moved)) Prod.fst
  case hd =>
    rw [skeleton_carried]
    exact hd
  case hrings => exact fun s v => rings_keepInside (s.1.translateBody v _) v _ _
  case hother =>
    intro s v u hne
    exact (body_keepInside_of_ne _ hne _ _).trans (body_modifyBody_of_ne _ hne _)
  case hsize =>
    exact fun s v => (bodies_size_keepInside _ v _ _).trans Array.size_modify
  case hown =>
    intro s v hv
    exact distance_keepInside_le (hv.trans_eq Array.size_modify.symm) _ _

/-- After every motion all members inside rings keep clear of the circles, whatever the forces. -/
theorem keptInside_move (hd : d.skeleton.Sound members) (cooling : ℝ) (gather : Bool) (c : Nat) :
    KeptInside (d.move cooling gather).1 c := by
  by_cases hc : c < d.rings.size
  · obtain ⟨state, hskeleton, -, hafter⟩ := exists_turn_move hd hc cooling gather
    have hstate : state.1.skeleton.Sound members := hskeleton.symm ▸ hd
    have hmoved := (skeleton_moveRing cooling (cooling * maxDisplacement) gather state c).trans
      hskeleton
    have hkept := keptInside_moveRing cooling (cooling * maxDisplacement) gather hstate c
    rw [← hmoved, ← skeleton_unforced] at hd
    exact (hkept.of_figure (figure_unforced _)).sameOn hd hafter
  -- a ring that does not exist has nobody inside
  · apply keptInside_of_nil
    rw [ring_eq_blank]
    · rfl
    · rw [rings_move]
      exact Nat.le_of_not_lt hc

/-! ## Going inside -/

theorem keptInside_drawnBack (hd : d.skeleton.Sound members) (c : Nat) :
    KeptInside (d.drawnBack c) c := by
  apply keptInside_foldl (s := d) id hd
  case hrings => exact fun e v => rings_keepInside e v _ _
  case hother => exact fun e v u hne => body_keepInside_of_ne e hne _ _
  case hsize => exact fun e v => bodies_size_keepInside e v _ _
  case hown => exact fun e v hv => distance_keepInside_le hv _ _

/-- A ring on which members may have gone inside is as it was, or it has been laid out anew and
everybody inside has been drawn back. -/
theorem relocateOnRing_cases (share separation : ℝ) (state : Nat × Drawing ℝ) (c : Nat) :
    (relocateOnRing share separation state c).2 = state.2 ∨ ∃ budget,
      (relocateOnRing share separation state c).2 =
        (((moveMembersInside c budget state.2).2.spread c separation).drawnBack c) := by
  unfold relocateOnRing
  dsimp only
  split
  next hnone => exact Or.inl (moveMembersInside_eq_of_none c _ state.2 hnone)
  next => exact Or.inr ⟨_, rfl⟩

/-- What this does to the ring keeps its members inside, and leaves the other rings as they are. -/
theorem relocated_cases {state : Nat × Drawing ℝ} (hd : state.2.skeleton.Sound members)
    (share separation : ℝ) (c : Nat) :
    (relocateOnRing share separation state c).2 = state.2 ∨ ∃ budget,
      (relocateOnRing share separation state c).2.skeleton =
        (moveMembersInside c budget state.2).2.skeleton ∧
      Local c state.2 (relocateOnRing share separation state c).2 ∧
      KeptInside (relocateOnRing share separation state c).2 c := by
  rcases relocateOnRing_cases share separation state c with heq | ⟨budget, heq⟩
  · exact Or.inl heq
  · have hmoved := (secludes_moveMembersInside c budget hd).sound
    have hskeleton := skeleton_spread hmoved.seated c separation
    have hlaid : ((moveMembersInside c budget state.2).2.spread c separation).skeleton.Sound
        members := hskeleton ▸ hmoved
    refine Or.inr ⟨budget, ?_, local_relocateOnRing share separation state.1 hd c, ?_⟩
    · rw [heq]
      exact (skeleton_drawnBack _ c).trans hskeleton
    · rw [heq]
      exact keptInside_drawnBack hlaid c

theorem keptInside_relocateInside (hd : d.skeleton.Sound members) (h : ∀ c, KeptInside d c)
    (share separation : ℝ) (c : Nat) : KeptInside (d.relocateInside share separation).2 c := by
  have hboth : (d.relocateInside share separation).2.skeleton.Sound members ∧
      ∀ c, KeptInside (d.relocateInside share separation).2 c := by
    refine List.foldlRecOn (motive := fun state : Nat × Drawing ℝ =>
      state.2.skeleton.Sound members ∧ ∀ c, KeptInside state.2 c) d.ringNumbers
        (relocateOnRing share separation) ⟨hd, h⟩ ?_
    rintro state ⟨hsound, hkept⟩ b -
    refine ⟨(secludes_relocateOnRing share separation state b hsound).sound, fun c => ?_⟩
    rcases relocated_cases hsound share separation b with heq | ⟨budget, -, hlocal, hinside⟩
    · rw [heq]
      exact hkept c
    · by_cases hc : c = b
      · rwa [hc]
      · exact (hkept c).sameOn hsound (hlocal.sameOn hc)
  exact hboth.2 c

/-! ## Packing -/

theorem Proper.keptInside_packComponents (h : Proper members d) (hc : KeptInside d c)
    (spacing : ℝ) : KeptInside (d.packComponents spacing).2 c := by
  obtain ⟨shift, htogether, -, hbody⟩ := @Proper.exists_rigid _ _ h spacing
  have hring : (d.packComponents spacing).2.ring c = d.ring c :=
    ring_of_rings (congrArg Drawing.rings (h.slides_packed spacing).rest_eq) c
  intro v hv
  have hv' : v ∈ (d.ring c).inside := by rwa [hring] at hv
  refine hc.moved ⟨shift (d.ring c).hub, 0⟩ ?_ ?_ ?_ (fun u hu => ?_) v hv
  · rw [hring]
  · rw [hring]
  · rw [hring]
  · have hhub := ring?_of_hub_or_inside h.sound hv' (Or.inl rfl)
    have hu' := ring?_of_hub_or_inside h.sound hv' hu
    rw [hbody, ← htogether u _ (Relation.EqvGen.rel _ _ (.ring hu' hhub))]
    rfl

theorem rings_tileFrom (rows : Rows) (cursor : TileCursor ℝ) (tiles : List Nat) (d : Drawing ℝ) :
    (tileFrom rows cursor tiles d).rings = d.rings := by
  have hrings := congrArg Drawing.rings (@rest_tileFrom rows cursor tiles d)
  exact hrings

theorem keptInside_tileIsolated (hd : d.skeleton.Sound members) (h : KeptInside d c)
    (paddingX paddingY : ℝ) : KeptInside (d.tileIsolated paddingX paddingY) c := by
  obtain ⟨y, -, heq⟩ := exists_tileIsolated_eq hd paddingX paddingY
  rw [heq]
  refine h.sameOn hd ⟨?_, fun v hv => ?_⟩
  · exact ring_of_rings (rings_tileFrom _ _ _ d) c
  · apply body_tileFrom_of_notMem
    intro htile
    have hfree : (d.skeleton.place v).ring? = none := by rw [hd.hubbed.tile v htile]; rfl
    rw [← ring?_wiring] at hv
    exact Option.some_ne_none c (hv.symm.trans hfree)

theorem keptInside_centerOn (hd : d.skeleton.Sound members) (h : KeptInside d c)
    (target : Point ℝ) : KeptInside (d.centerOn target) c := by
  unfold centerOn
  split
  next e _ =>
    intro v hv
    refine h.moved (target.sub e.center) ?_ ?_ ?_ (fun u hu => ?_) v hv
    · rfl
    · rfl
    · rfl
    · have hlt := lt_size_of_ring? (ring?_of_hub_or_inside hd hv hu)
      simp [body, hlt, Body.translate]
  next => exact h

end Drawing

end RingLayout
