import RingLayout.Proofs.Circles
import RingLayout.Proofs.Angles.Members
import RingLayout.Proofs.Aspects
import RingLayout.Proofs.Locality.Motion

/-! # Pulls gathered for exchanges

While pulls are gathered, every member on a ring adds the pull that it is under when its ring
moves. Other rings that move before change nothing about it. A round of exchanges clears all
pulls, and nothing else changes them. Motion leaves the rules of the exchanges and the orders that
they were worked out for as they are.
-/

namespace RingLayout

variable {K : Type} [Scalar K]

/-- The pull that a body has gathered along its ring. -/
def Body.pull (b : Body K) : K :=
  match b.seat? with
  | some s => s.pull
  | none => 0.0

/-- Whether a member may change places with the next one, and with the one before. -/
def Body.rules (b : Body K) : Option (Bool × Bool) :=
  b.seat?.map fun s => (s.swapsNext, s.swapsPrevious)

namespace Body

/-- A change of a seat is seen at the pull if it is one of the pull. -/
theorem pull_mapSeat {b : Body K} (hb : b.isSeated) {f : Seat K → Seat K} {F : K → K}
    (hf : ∀ s, (f s).pull = F s.pull) :
    pull { b with role := b.role.mapSeat f } = F b.pull := by
  obtain ⟨id, group, box, spring, repulsion, gravitation, role⟩ := b
  cases role with
  | seated s => exact hf s
  | _ => cases hb

/-- A body whose seat, if it has one, is not pulled any more. -/
def unpulled (b : Body K) : Body K :=
  { b with role := b.role.mapSeat fun s => { s with pull := 0.0 } }

theorem pull_unpulled (b : Body K) : b.unpulled.pull = 0.0 := by
  obtain ⟨id, group, box, spring, repulsion, gravitation, role⟩ := b
  cases role <;> rfl

theorem unpulled_of_not_isSeated {b : Body K} (hb : b.isSeated = false) : b.unpulled = b := by
  obtain ⟨id, group, box, spring, repulsion, gravitation, role⟩ := b
  cases role with
  | seated s => cases hb
  | _ => rfl

end Body

namespace Drawing

variable {members : Nat → List Nat} {d d' d'' : Drawing K} {c v : Nat}

/-! ## What can be seen of exchanges -/

theorem steady_pull : Steady (K := K) Body.pull where
  box_eq _ _ := rfl
  forces_eq _ := rfl
  seat_eq b _ _ := by
    simp only [Body.pull, Body.seat?]
    cases b.role <;> rfl

theorem hidesRules_pull : HidesRules (K := K) Body.pull where
  next_eq b _ := by
    simp only [Body.pull, Body.seat?]
    cases b.role <;> rfl
  previous_eq b _ := by
    simp only [Body.pull, Body.seat?]
    cases b.role <;> rfl

theorem steady_rules : Steady (K := K) Body.rules where
  box_eq _ _ := rfl
  forces_eq _ := rfl
  seat_eq b _ _ := by
    simp only [Body.rules, Body.seat?]
    cases b.role <;> rfl

omit [Scalar K] in
theorem hidesPulls_rules : HidesPulls (K := K) Body.rules := by
  intro b _
  simp only [Body.rules, Body.seat?]
  cases b.role <;> rfl

/-- The orders of all rings, those that the rules of the exchanges were worked out for, and these
rules are the same. -/
structure SameRules (d d' : Drawing K) : Prop where
  rings_eq : d'.rings = d.rings
  rules_eq : ∀ v, (d'.body v).rules = (d.body v).rules

theorem SameRules.trans (h : SameRules d d') (h' : SameRules d' d'') : SameRules d d'' where
  rings_eq := h'.rings_eq.trans h.rings_eq
  rules_eq v := (h'.rules_eq v).trans (h.rules_eq v)

theorem sameRules_gatherForces (s : ForceSettings K) (connected : Bool) (d : Drawing K) :
    SameRules d (gatherForces s connected d) :=
  ⟨rings_gatherForces s connected d, (keeps_gatherForces steady_rules s connected d).view_eq⟩

theorem sameRules_move (cooling : K) (gather : Bool) (d : Drawing K) :
    SameRules d (d.move cooling gather).1 where
  rings_eq := rings_move cooling gather d
  rules_eq := (keeps_move steady_rules cooling (fun _ => hidesPulls_rules) d).view_eq

/-- A ring is observed when its turn comes, and stays so. -/
theorem observedOrder_observeOrders {rings : List Nat} (hc : c < d.rings.size)
    (h : c ∈ rings ∨ (d.ring c).observedOrder = some (d.ring c).order) :
    ((rings.foldl observeOrder d).ring c).observedOrder =
      some ((rings.foldl observeOrder d).ring c).order := by
  induction rings generalizing d with
  | nil => exact h.resolve_left List.not_mem_nil
  | cons b rest ih =>
      refine ih (hc.trans_eq Array.size_modify.symm) ?_
      by_cases hcb : c = b
      · subst hcb
        rw [observeOrder, ring_modifyRing d hc, if_pos rfl]
        exact Or.inr rfl
      · rw [observeOrder, (local_modifyRing d b _).ring_eq c hcb]
        exact h.imp_left fun hmem => (List.mem_cons.mp hmem).resolve_left hcb

/-- The rules are worked out for the orders as they are. -/
theorem observedOrder_refreshExchanges (hc : c < d.rings.size) :
    (d.refreshExchanges.ring c).observedOrder = some (d.refreshExchanges.ring c).order := by
  have hring : d.refreshExchanges.ring c = (d.ringNumbers.foldl observeOrder d).ring c :=
    ring_of_rings d.rings_refreshExchanges c
  rw [hring]
  exact observedOrder_observeOrders hc (Or.inl (List.mem_range.mpr hc))

/-! ## Gathering -/

/-- The pull of the forces on a body along a ring. -/
def pullAlong (d : Drawing K) (c v : Nat) : K :=
  (Point.alongCircle (d.ringCenter c) (d.body v).center (d.body v).totalForce).1

/-- The part of all forces on a body together that acts in the direction in which an angle grows. -/
noncomputable def forceAlong (b : Body ℝ) (angle : ℝ) : ℝ :=
  (b.spring.y + b.repulsion.y + b.gravitation.y) * Real.cos angle -
    (b.spring.x + b.repulsion.x + b.gravitation.x) * Real.sin angle

/-- That is what pulls at a member on its circle. -/
theorem OnCircle.pullAlong_eq {d : Drawing ℝ} (h : OnCircle d c) (hv : v ∈ (d.ring c).order)
    (hradius : 1e-9 ≤ (d.ring c).radius) :
    d.pullAlong c v = forceAlong (d.body v) (d.angleOf v) := by
  rw [pullAlong, h v hv]
  exact Point.alongCircle_onCircle _ _ hradius _

/-- On a circle that is taken for a point nothing pulls. -/
theorem OnCircle.pullAlong_eq_zero {d : Drawing ℝ} (h : OnCircle d c) (hv : v ∈ (d.ring c).order)
    (hradius : |(d.ring c).radius| < 1e-9) : d.pullAlong c v = 0 := by
  have hzero : (0.0 : ℝ) = 0 := by norm_num
  have hnorm : ((d.body v).center.sub (d.ringCenter c)).norm < 1e-9 :=
    (h.distance_eq hv).trans_lt hradius
  rw [pullAlong, Point.alongCircle]
  dsimp only
  rw [if_pos hnorm, hzero]

/-- Every member on a ring that gathers adds its own cooled pull. -/
theorem pull_pulled (hd : d.skeleton.Sound members) (hv : v ∈ (d.ring c).order) (cooling : K) :
    ((d.pulled cooling c).body v).pull = (d.body v).pull + cooling * d.pullAlong c v := by
  have hpulls : (d.ring c).order.zip (d.splitForces c).1 =
      (d.ring c).order.map fun u => (u, d.pullAlong c u) := by
    rw [splitForces, List.map_map, List.map_prod_left_eq_zip]
    rfl
  have hsize : ∀ u ∈ (d.ring c).order, u < d.bodies.size :=
    fun u hu => lt_size_of_seated hd.seated hu
  let gain (u : Nat) (b : Body K) : Body K := { b with role := b.role.mapSeat fun s =>
    { s with pull := s.pull + cooling * d.pullAlong c u } }
  have hbody : (d.pulled cooling c).body v = gain v (d.body v) := by
    rw [pulled, hpulls, List.foldl_map]
    refine (body_foldl (f := gain) (fun e u => e.modifyBody_const u _)
      (hd.seated.order_nodup c) hsize v).trans (if_pos hv)
  rw [hbody]
  exact Body.pull_mapSeat (isSeated_of_mem_order hd hv) (F := (· + cooling * d.pullAlong c v))
    fun _ => by rfl

/-- After its pulls are gathered, a ring moves without a change to them. -/
theorem pull_moveRing (cooling limit : K) (state : Drawing K × K) (c v : Nat) :
    ((moveRing cooling limit true state c).1.body v).pull =
      ((state.1.pulled cooling c).body v).pull := by
  obtain ⟨delta, angle, moved, heq⟩ := exists_moveRing_eq cooling limit true state c
  have hcarried : Keeps Body.pull (state.1.pulled cooling c)
      (state.1.carried cooling true c delta angle) :=
    (keeps_translateRing steady_pull _ c delta).trans (keeps_rotateRing steady_pull _ c angle)
  rw [heq, (keeps_moveInsideMembers steady_pull cooling limit _ _ _ _).view_eq]
  exact hcarried.view_eq v

/-- What a ring is like when its turn to move comes, it was like before all motion. -/
theorem SameOn.pullAlong_eq (h : SameOn c d d') (hd : d.skeleton.Sound members)
    (hv : v ∈ (d.ring c).order) : d'.pullAlong c v = d.pullAlong c v := by
  have hhub := congrArg Role.ring? (role_hub hd (lt_size_of_mem_order hv))
  rw [pullAlong, ringCenter, h.ring_eq, h.body_eq _ hhub,
    h.body_eq v (ring?_of_mem_order hd hv)]
  rfl

/-- While pulls are gathered, all members on rings add the pulls that they are under before the
motion. -/
theorem pull_move (hd : d.skeleton.Sound members) (hv : v ∈ (d.ring c).order) (cooling : K) :
    ((d.move cooling true).1.body v).pull = (d.body v).pull + cooling * d.pullAlong c v := by
  obtain ⟨state, hskeleton, hbefore, hafter⟩ :=
    exists_turn_move hd (lt_size_of_mem_order hv) cooling true
  have hring := ring?_of_mem_order hd hv
  have hstate : state.1.skeleton.Sound members := hskeleton.symm ▸ hd
  have hv' : v ∈ (state.1.ring c).order := hbefore.ring_eq ▸ hv
  let moved := (moveRing cooling (cooling * maxDisplacement) true state c).1
  have hmoved : (moved.unforced.body v).role.ring? = some c := by
    have hsound : moved.unforced.skeleton.Sound members := by
      rw [skeleton_unforced, skeleton_moveRing]
      exact hstate
    refine ring?_of_mem_order hsound ?_
    change v ∈ (moved.unforced.skeleton.ring c).order
    rw [skeleton_unforced, skeleton_moveRing]
    exact hv'
  calc ((d.move cooling true).1.body v).pull
      = (moved.unforced.body v).pull := by rw [hafter.body_eq v hmoved]
    _ = (moved.body v).pull := (keeps_unforced steady_pull moved).view_eq v
    _ = ((state.1.pulled cooling c).body v).pull := pull_moveRing cooling _ state c v
    _ = (state.1.body v).pull + cooling * state.1.pullAlong c v :=
        pull_pulled hstate hv' cooling
    _ = (d.body v).pull + cooling * d.pullAlong c v := by
        rw [hbefore.body_eq v hring, hbefore.pullAlong_eq hd hv]

/-! ## Clearing -/

/-- Nothing has been gathered. -/
def Unpulled (d : Drawing K) : Prop := ∀ v, (d.body v).pull = 0.0

theorem Unpulled.alike (hd : Unpulled d) (h : Alike Body.pull d d') : Unpulled d' :=
  fun v => (h.view_eq v).trans (hd v)

/-- Whoever is not on a ring has no pull to clear. -/
theorem body_clearPulls (hd : d.skeleton.Seated members) (v : Nat) :
    d.clearPulls.body v = (d.body v).unpulled := by
  have hseated : ∀ u, u ∈ d.seated ↔ (d.body u).isSeated = true := by
    intro u
    refine (hd.mem_seated_iff u).trans ?_
    change (d.body u).role.place.seat?.isSome ↔ (d.body u).role.seat?.isSome
    cases (d.body u).role <;> rfl
  have hbody : d.clearPulls.body v =
      if v ∈ d.seated then (d.body v).unpulled else d.body v := by
    refine body_foldl (f := fun _ => Body.unpulled) (fun e u => e.modifyBody_const u _)
      hd.seated_nodup (fun u hu => lt_size_of_isSeated ((hseated u).mp hu)) v
  rw [hbody]
  split
  next => rfl
  next hv =>
    rw [hseated, Bool.not_eq_true] at hv
    exact (Body.unpulled_of_not_isSeated hv).symm

theorem unpulled_clearPulls (hd : d.skeleton.Seated members) : Unpulled d.clearPulls := by
  intro v
  rw [body_clearPulls hd]
  exact Body.pull_unpulled _

/-- A round of exchanges clears all pulls. -/
theorem unpulled_performExchanges (hd : d.skeleton.Seated members) (m : ExchangeMemory) :
    Unpulled (d.performExchanges m).2.1 := by
  have hseated := (untangles_performExchanges hd m).seated
  obtain ⟨d', -, heq⟩ := d.exists_exchanges m
  rw [heq] at hseated ⊢
  rw [clearPulls, skeleton_clearPulls] at hseated
  exact unpulled_clearPulls hseated

/-- Drawings are built without pulls. -/
theorem unpulled_build {g : Graph K} {o : Options K} {built : Drawing K}
    (h : build g o = .ok built) : Unpulled built := by
  obtain ⟨⟨⟩, -, h⟩ := bind_eq_ok h
  obtain ⟨cs, -, h⟩ := bind_eq_ok h
  cases h
  have hall : ∀ b ∈ (ofClusters g o cs).bodies, b.pull = 0.0 := by
    intro b hb
    simp only [ofClusters, Array.mem_append, List.mem_toArray, List.mem_map] at hb
    rcases hb with ⟨⟨m, v⟩, -, rfl⟩ | ⟨p, -, rfl⟩
    · change Body.pull (nodeBody m (roleOf cs _ v)) = 0.0
      unfold roleOf
      split <;> rfl
    · rfl
  intro v
  by_cases hv : v < (ofClusters g o cs).bodies.size
  · rw [body, Array.getD_eq_getD_getElem?, Array.getElem?_eq_getElem hv]
    exact hall _ (Array.getElem_mem hv)
  · rw [body_eq_blank (Nat.le_of_not_lt hv)]
    rfl

end Drawing

end RingLayout
