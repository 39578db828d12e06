import RingLayout.Proofs.Motions.Members
import RingLayout.Proofs.Motions.Operations

/-! # Rings move in turn

When all roots and rings are moved, each ring finds its own members as the forces left them: free
roots are on no ring, and the motion of another ring is local. What it makes of them stays until
the end.
-/

namespace RingLayout.Drawing

variable {K : Type} [Scalar K] {members : Nat → List Nat} {d d' d'' : Drawing K} {b c : Nat}

/-! ## One ring and its bodies -/

/-- Two drawings that agree on a ring and on the bodies that belong to it in the first. -/
structure SameOn (c : Nat) (d d' : Drawing K) : Prop where
  ring_eq : d'.ring c = d.ring c
  body_eq : ∀ v, (d.body v).role.ring? = some c → d'.body v = d.body v

namespace SameOn

theorem refl (c : Nat) (d : Drawing K) : SameOn c d d := ⟨rfl, fun _ _ => rfl⟩

theorem trans (h : SameOn c d d') (h' : SameOn c d' d'') : SameOn c d d'' where
  ring_eq := h'.ring_eq.trans h.ring_eq
  body_eq v hv := by
    have hsame := h.body_eq v hv
    rw [h'.body_eq v (hsame ▸ hv), hsame]

theorem foldl {σ α : Type} (part : σ → Drawing K) {step : σ → α → σ} {l : List α} {s : σ}
    (hstep : ∀ s', (part s').skeleton = (part s).skeleton → ∀ a ∈ l,
      SameOn c (part s') (part (step s' a)) ∧ (part (step s' a)).skeleton = (part s').skeleton) :
    SameOn c (part s) (part (l.foldl step s)) := by
  induction l generalizing s with
  | nil => exact refl c _
  | cons a rest ih =>
      obtain ⟨hfirst, hskeleton⟩ := hstep s rfl a List.mem_cons_self
      refine hfirst.trans (ih fun s' hs' x hx => ?_)
      exact hstep s' (hs'.trans hskeleton) x (List.mem_cons_of_mem a hx)

end SameOn

theorem Local.sameOn (h : Local b d d') (hne : c ≠ b) : SameOn c d d' where
  ring_eq := h.ring_eq c hne
  body_eq v hv := h.body_eq v fun heq => hne (Option.some.inj (hv.symm.trans heq))

theorem body_unforced (d : Drawing K) (v : Nat) : d.unforced.body v = (d.body v).clearForces := by
  simp only [unforced, body, Array.getD_eq_getD_getElem?, Array.getElem?_map]
  cases d.bodies[v]? <;> rfl

theorem SameOn.unforced (h : SameOn c d d') : SameOn c d.unforced d'.unforced where
  ring_eq := h.ring_eq
  body_eq v hv := by
    rw [body_unforced] at hv
    rw [body_unforced, body_unforced, h.body_eq v hv]

/-! ## Records of rings -/

theorem rings_gatherForces (s : ForceSettings K) (connected : Bool) (d : Drawing K) :
    (gatherForces s connected d).rings = d.rings := by
  change (gatherForces s connected d).unforced.rings = d.unforced.rings
  rw [unforced_gatherForces]

theorem rings_rotateRing (d : Drawing K) (c : Nat) (angle : K) :
    (d.rotateRing c angle).rings = d.rings := by
  rw [rotateRing_eq]
  split
  · rfl
  · rw [rings_placeMembers]
    exact foldl_eq_of_step_eq Drawing.rings (fun _ _ => by rfl) _ d

theorem rings_refreshPair (d : Drawing K) (c i : Nat) : (refreshPair c d i).rings = d.rings := by
  unfold refreshPair
  dsimp only
  split <;> rfl

/-- Of the records of rings a refreshment of the rules changes the observed orders only. -/
theorem rings_refreshExchanges (d : Drawing K) :
    d.refreshExchanges.rings = (d.ringNumbers.foldl observeOrder d).rings :=
  foldl_eq_of_step_eq Drawing.rings (fun d c =>
    foldl_eq_of_step_eq Drawing.rings (fun d i => d.rings_refreshPair c i) _ d) _ _

theorem rings_keepInside (d : Drawing K) (v : Nat) (center : Point K) (radius : K) :
    (d.keepInside v center radius).rings = d.rings := by
  unfold keepInside
  dsimp only
  split <;> rfl

theorem rings_moveRoots (cooling limit : K) (roots : List Nat) (state : Drawing K × K) :
    (roots.foldl (moveRoot cooling limit) state).1.rings = state.1.rings := by
  refine foldl_eq_of_step_eq (fun s : Drawing K × K => s.1.rings) (fun s v => ?_) roots state
  unfold moveRoot
  dsimp only
  split <;> rfl

theorem rings_moveInsideMembers (cooling limit : K) (center : Point K) (radius : K)
    (l : List Nat) (state : Drawing K × K) :
    (l.foldl (moveInsideMember cooling limit center radius) state).1.rings = state.1.rings :=
  foldl_eq_of_step_eq (fun s : Drawing K × K => s.1.rings)
    (fun s v => rings_keepInside (s.1.translateBody v _) v center radius) l state

/-- A ring whose members have added their cooled pulls up. -/
def pulled (d : Drawing K) (cooling : K) (c : Nat) : Drawing K :=
  ((d.ring c).order.zip (d.splitForces c).1).foldl
    (fun d p => d.modifySeat p.1 fun s => { s with pull := s.pull + cooling * p.2 }) d

theorem rings_pulled (d : Drawing K) (cooling : K) (c : Nat) :
    (d.pulled cooling c).rings = d.rings :=
  foldl_eq_of_step_eq Drawing.rings (fun _ _ => by rfl) _ d

theorem skeleton_pulled (d : Drawing K) (cooling : K) (c : Nat) :
    (d.pulled cooling c).skeleton = d.skeleton :=
  congrArg Figure.skeleton (figure_gatherPulls cooling _ d)

/-- A ring that has gathered its pulls, if it is to, and has moved and turned. -/
def carried (d : Drawing K) (cooling : K) (gather : Bool) (c : Nat) (delta : Point K) (angle : K) :
    Drawing K :=
  ((if gather then d.pulled cooling c else d).translateRing c delta).rotateRing c angle

theorem rings_carried (d : Drawing K) (cooling : K) (gather : Bool) (c : Nat) (delta : Point K)
    (angle : K) : (d.carried cooling gather c delta angle).rings = d.rings := by
  rw [carried, rings_rotateRing, rings_translateRing]
  split
  · exact d.rings_pulled cooling c
  · rfl

theorem skeleton_carried (d : Drawing K) (cooling : K) (gather : Bool) (c : Nat)
    (delta : Point K) (angle : K) :
    (d.carried cooling gather c delta angle).skeleton = d.skeleton := by
  rw [carried, skeleton_rotateRing, skeleton_translateRing]
  split
  · exact d.skeleton_pulled cooling c
  · rfl

/-- A ring moves, and then the members inside it move on their own. -/
theorem exists_moveRing_eq (cooling limit : K) (gather : Bool) (state : Drawing K × K) (c : Nat) :
    ∃ delta angle moved, (moveRing cooling limit gather state c).1 =
      ((state.1.ring c).inside.foldl (moveInsideMember cooling limit
        ((state.1.carried cooling gather c delta angle).ringCenter c) (state.1.ring c).radius)
          (state.1.carried cooling gather c delta angle, moved)).1 :=
  ⟨_, _, _, rfl⟩

theorem rings_moveRing (cooling limit : K) (gather : Bool) (state : Drawing K × K) (c : Nat) :
    (moveRing cooling limit gather state c).1.rings = state.1.rings := by
  obtain ⟨delta, angle, moved, heq⟩ := exists_moveRing_eq cooling limit gather state c
  rw [heq, rings_moveInsideMembers, rings_carried]

/-- Motion leaves the records of all rings as they are. -/
theorem rings_move (cooling : K) (gather : Bool) (d : Drawing K) :
    (d.move cooling gather).1.rings = d.rings :=
  (foldl_eq_of_step_eq (fun s : Drawing K × K => s.1.rings)
    (rings_moveRing cooling (cooling * maxDisplacement) gather) _ _).trans
      (rings_moveRoots cooling _ d.roots (d, 0.0))

/-! ## The motion of one ring -/

theorem local_keepInside {v : Nat} (hv : (d.body v).role.ring? = some c) (center : Point K)
    (radius : K) : Local c d (d.keepInside v center radius) := by
  unfold keepInside
  dsimp only
  split
  · exact local_modifyBody hv hv
  · exact .refl c d

theorem local_moveInsideMembers (cooling limit : K) (center : Point K) (radius : K)
    {l : List Nat} {state : Drawing K × K} (hl : ∀ v ∈ l, (state.1.body v).role.ring? = some c) :
    Local c state.1 (l.foldl (moveInsideMember cooling limit center radius) state).1 := by
  induction l generalizing state with
  | nil => exact .refl c _
  | cons v rest ih =>
      obtain ⟨hv, hrest⟩ := List.forall_mem_cons.mp hl
      have hmoved : Local c state.1 (moveInsideMember cooling limit center radius state v).1 := by
        have htranslated : Local c state.1 (state.1.translateBody v
            (displacement cooling limit (state.1.body v).totalForce)) := local_modifyBody hv hv
        exact htranslated.trans (local_keepInside ((htranslated.ring?_eq v).trans hv) _ _)
      exact hmoved.trans (ih fun u hu => (hmoved.ring?_eq u).trans (hrest u hu))

theorem local_carried (hd : d.skeleton.Sound members) (hc : c < d.rings.size) (cooling : K)
    (gather : Bool) (delta : Point K) (angle : K) :
    Local c d (d.carried cooling gather c delta angle) := by
  have hpulled : Local c d (if gather then d.pulled cooling c else d) := by
    split
    · refine .foldl Prod.fst (fun p hp => ring?_of_mem_order hd (List.of_mem_zip hp).1) ?_
      exact fun _ _ hv => local_modifySeat (fun _ => rfl) hv
    · exact .refl c d
  have hsound : (if gather then d.pulled cooling c else d).skeleton.Sound members := by
    split
    · exact (d.skeleton_pulled cooling c).symm ▸ hd
    · exact hd
  have hsize : c < (if gather then d.pulled cooling c else d).rings.size := by
    split
    · exact (d.rings_pulled cooling c).symm ▸ hc
    · exact hc
  have hmoved := local_translateRing hsound hsize delta
  rw [← skeleton_translateRing _ c delta] at hsound
  exact hpulled.trans (hmoved.trans (local_rotateRing hsound c angle))

theorem local_moveRing (cooling limit : K) (gather : Bool) {state : Drawing K × K}
    (hd : state.1.skeleton.Sound members) (hc : c < state.1.rings.size) :
    Local c state.1 (moveRing cooling limit gather state c).1 := by
  obtain ⟨delta, angle, moved, heq⟩ := exists_moveRing_eq cooling limit gather state c
  have hcarried := local_carried hd hc cooling gather delta angle
  let start := (state.1.carried cooling gather c delta angle, moved)
  have hinside : ∀ v ∈ (state.1.ring c).inside, (start.1.body v).role.ring? = some c :=
    fun v hv => (hcarried.ring?_eq v).trans (ring?_of_mem_inside hd hv)
  rw [heq]
  exact hcarried.trans (local_moveInsideMembers cooling limit _ _ hinside)

/-! ## Turns -/

/-- Free roots belong to no ring. -/
theorem sameOn_moveRoots (hd : d.skeleton.Sound members) (c : Nat) (cooling limit total : K) :
    SameOn c d (d.roots.foldl (moveRoot cooling limit) (d, total)).1 := by
  refine SameOn.foldl (s := (d, total)) Prod.fst fun state hstate v hv => ?_
  have hskeleton := skeleton_moveRoot cooling limit state v
  refine ⟨?_, hskeleton⟩
  unfold moveRoot
  dsimp only
  split
  next => exact .refl c _
  next hhub =>
    refine ⟨rfl, fun u hu => body_modifyBody_of_ne _ ?_ _⟩
    rintro rfl
    rcases hd.hubbed.root u hv with hfree | ⟨b, hb⟩
    · rw [← ring?_wiring] at hu
      have hplace : state.1.skeleton.place u = .free := hstate ▸ hfree
      change (state.1.skeleton.place u).ring? = some c at hu
      rw [hplace] at hu
      cases hu
    · have hplace : state.1.skeleton.place u = .hub b := hstate ▸ hb
      change (state.1.body u).role.place = .hub b at hplace
      cases hrole : (state.1.body u).role <;> rw [hrole] at hplace <;> cases hplace
      simp [Body.isHub, hrole, Role.hub?] at hhub

/-- Rings that change in turn, each locally: one of them is as it was at the start when its turn
comes, and stays as it is after its turn. -/
theorem exists_turn {σ : Type} (part : σ → Drawing K) {step : σ → Nat → σ} {rings : List Nat}
    (hrings : rings.Nodup) {s : σ}
    (hskeleton : ∀ s' b, (part (step s' b)).skeleton = (part s').skeleton)
    (hlocal : ∀ s', (part s').skeleton = (part s).skeleton → ∀ b ∈ rings,
      Local b (part s') (part (step s' b))) (hc : c ∈ rings) :
    ∃ s', (part s').skeleton = (part s).skeleton ∧ SameOn c (part s) (part s') ∧
      SameOn c (part (step s' c)) (part (rings.foldl step s)) := by
  -- the turn of the ring divides the loop in two, and other rings have the turns on either side
  obtain ⟨before, after, rfl⟩ := List.append_of_mem hc
  have hbefore : c ∉ before := fun hmem =>
    (List.nodup_append.mp hrings).2.2 c hmem c List.mem_cons_self rfl
  have hafter : c ∉ after := (List.nodup_cons.mp (List.nodup_append.mp hrings).2.1).1
  have hfold : ∀ l : List Nat, (part (l.foldl step s)).skeleton = (part s).skeleton :=
    fun l => foldl_eq_of_step_eq (fun s => (part s).skeleton) hskeleton l s
  refine ⟨before.foldl step s, hfold before, ?_, ?_⟩
  · refine SameOn.foldl part fun s' hs' b hb => ⟨?_, hskeleton s' b⟩
    exact (hlocal s' hs' b (List.mem_append_left _ hb)).sameOn fun heq => hbefore (heq ▸ hb)
  · rw [List.foldl_append, List.foldl_cons]
    refine SameOn.foldl part fun s' hs' b hb => ⟨?_, hskeleton s' b⟩
    refine (hlocal s' ?_ b ?_).sameOn fun heq => hafter (heq ▸ hb)
    · exact hs'.trans ((hskeleton _ c).trans (hfold before))
    · exact List.mem_append_right _ (List.mem_cons_of_mem c hb)

/-- In the motion of a drawing every ring has its turn. -/
theorem exists_turn_move (hd : d.skeleton.Sound members) (hc : c < d.rings.size) (cooling : K)
    (gather : Bool) : ∃ state : Drawing K × K, state.1.skeleton = d.skeleton ∧
      SameOn c d state.1 ∧
        SameOn c (moveRing cooling (cooling * maxDisplacement) gather state c).1.unforced
          (d.move cooling gather).1 := by
  let limit := cooling * maxDisplacement
  let moved := d.roots.foldl (moveRoot cooling limit) (d, 0.0)
  have hmoved : moved.1.skeleton = d.skeleton :=
    foldl_eq_of_step_eq (fun s : Drawing K × K => s.1.skeleton) (skeleton_moveRoot cooling limit)
      d.roots (d, 0.0)
  have hlocal : ∀ state : Drawing K × K, state.1.skeleton = moved.1.skeleton →
      ∀ b ∈ d.ringNumbers, Local b state.1 (moveRing cooling limit gather state b).1 := by
    intro state hstate b hb
    have hsame : state.1.skeleton = d.skeleton := hstate.trans hmoved
    refine local_moveRing cooling limit gather (hsame.symm ▸ hd) ?_
    have hcount : state.1.rings.size = d.rings.size := congrArg Skeleton.ringCount hsame
    exact hcount ▸ List.mem_range.mp hb
  obtain ⟨state, hskeleton, hbefore, hafter⟩ := exists_turn Prod.fst List.nodup_range
    (skeleton_moveRing cooling limit gather) hlocal (List.mem_range.mpr hc)
  exact ⟨state, hskeleton.trans hmoved, (sameOn_moveRoots hd c cooling limit 0.0).trans hbefore,
    hafter.unforced⟩

end RingLayout.Drawing
