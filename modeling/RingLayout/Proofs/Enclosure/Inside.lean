import RingLayout.Proofs.Angles.Run
import RingLayout.Proofs.Enclosure
import RingLayout.Proofs.Interior.Run

/-! # Hubs and the members inside rings

Members inside a ring are kept within the circle and so within the hub around it, if they are not
larger than the hub. But a hub is fitted to the members that are still on its ring: one that goes
inside may be larger than the square that is left around the others.
-/

namespace RingLayout

open Run (Sheltered)

theorem Point.eq_of_distance_le_zero {p q : Point ℝ} (h : p.distance q ≤ 0) : p = q := by
  have hzero : p.distance q = 0 := le_antisymm h (distance_nonneg p q)
  have hsq := distance_sq p q
  rw [hzero] at hsq
  have hx : p.x - q.x = 0 := by nlinarith [sq_nonneg (p.x - q.x), sq_nonneg (p.y - q.y)]
  have hy : p.y - q.y = 0 := by nlinarith [sq_nonneg (p.x - q.x), sq_nonneg (p.y - q.y)]
  cases p
  cases q
  exact congrArg₂ Point.mk (sub_eq_zero.mp hx) (sub_eq_zero.mp hy)

namespace Drawing

variable {members : Nat → List Nat} {d d' : Drawing ℝ} {c : Nat}

/-- What the hub of a ring covers of its members: those on the ring, and those inside that are not
larger than the hub. -/
structure Enclosed (d : Drawing ℝ) (c : Nat) : Prop where
  coversOrder : CoversOrder d c
  covers_inside_iff : ∀ v ∈ (d.ring c).inside,
    (d.body (d.ring c).hub).box.Covers (d.body v).box ↔
      (d.body v).box.width ≤ (d.body (d.ring c).hub).box.width ∧
        (d.body v).box.height ≤ (d.body (d.ring c).hub).box.height

/-- A hub that goes around its circle goes around whoever is kept inside. -/
theorem enclosed_of_keptInside (hcircle : OnCircle d c) (hgirded : Girded d c)
    (hkept : KeptInside d c) (hmanned : (d.ring c).inside ≠ [] → (d.ring c).order ≠ []) :
    Enclosed d c where
  coversOrder := hcircle.coversOrder hgirded
  covers_inside_iff := by
    intro v hv
    refine ⟨Box.Covers.sides_le, fun ⟨hwidth, hheight⟩ => ?_⟩
    obtain ⟨u, hu⟩ := List.exists_mem_of_ne_nil _ (hmanned (List.ne_nil_of_mem hv))
    obtain ⟨hnonneg, hsquare, hside⟩ := hgirded u hu
    have hlength : 0 ≤ (d.body u).box.diagonal := Real.sqrt_nonneg _
    have hdistance := hkept v hv
    rw [Box.reach] at hdistance
    rcases le_total (0.9 * (d.ring c).radius - (d.body v).box.diagonal / 2.0) 0 with hlarge | hsmall
    -- where there is no room to move, the member is at the center
    · rw [max_eq_left hlarge] at hdistance
      exact Box.covers_of_center_eq (Point.eq_of_distance_le_zero hdistance) hwidth hheight
    · rw [max_eq_right hsmall] at hdistance
      have hfits : (d.body v).box.center.distance (d.body (d.ring c).hub).box.center ≤
          0.9 * (d.ring c).radius - (d.body v).box.diagonal / 2.0 := hdistance
      refine Box.covers_of_distance_le hsquare ?_
      norm_num at hfits
      linarith

/-! ## Drawings that are tended -/

/-- Everybody inside a ring is kept there, and has left somebody on the ring. -/
structure Tended (members : Nat → List Nat) (d : Drawing ℝ) : Prop
    extends Sheltered members d where
  manned : ∀ c, (d.ring c).inside ≠ [] → (d.ring c).order ≠ []

theorem Tended.of_nil (hd : d.skeleton.Sound members) (h : ∀ c, (d.ring c).inside = []) :
    Tended members d where
  sound := hd
  kept c := keptInside_of_nil (h c)
  manned c hinside := absurd (h c) hinside

namespace Tended

variable (h : Tended members d)
include h

theorem of_figure (hfigure : d'.figure = d.figure) : Tended members d' where
  toSheltered := h.toSheltered.of_figure hfigure
  manned c := by
    have hring : (d'.ring c).shape = (d.ring c).shape :=
      congrArg (fun f => f.skeleton.ring c) hfigure
    obtain ⟨-, horder, hinside, -⟩ := RingShape.mk.inj hring
    rw [horder, hinside]
    exact h.manned c

/-- A change of one ring that leaves the ring in order. -/
theorem of_local (hd' : d'.skeleton.Sound members) (hlocal : Local c d d')
    (hkept : KeptInside d' c) (hmanned : (d'.ring c).inside ≠ [] → (d'.ring c).order ≠ []) :
    Tended members d' where
  sound := hd'
  kept b := by
    by_cases hb : b = c
    · rwa [hb]
    · exact (h.kept b).sameOn h.sound (hlocal.sameOn hb)
  manned b := by
    by_cases hb : b = c
    · rwa [hb]
    · rw [hlocal.ring_eq b hb]
      exact h.manned b

theorem translateRing (hc : c < d.rings.size) (delta : Point ℝ) :
    Tended members (d.translateRing c delta) := by
  have hring := d.ring_translateRing c c delta
  refine h.of_local ?_ (local_translateRing h.sound hc delta) ?_ ?_
  · rw [skeleton_translateRing]
    exact h.sound
  · apply (h.kept c).moved delta
    case hhub => rw [hring]
    case hinside => rw [hring]
    case hradius => rw [hring]
    case hbox =>
      intro v hv
      rw [body_translateRing h.sound hc, if_pos]
      · rfl
      · rcases hv with rfl | hv
        · exact List.mem_cons_self
        · exact List.mem_cons_of_mem _ (List.mem_append_right _ hv)
  · rw [hring]
    exact h.manned c

/-- Members on a ring that change seats leave the others alone. -/
theorem shuffled {e : Drawing ℝ} (he : Shuffled c d e)
    (hsound : (e.placeMembers c).skeleton.Sound members) (hlocal : Local c d (e.placeMembers c)) :
    Tended members (e.placeMembers c) := by
  have hbody := body_placeMembers ((skeleton_placeMembers e c).symm ▸ hsound) c
  refine h.of_local hsound hlocal ?_ ?_
  · intro v hv
    rw [ring_placeMembers, he.inside_eq] at hv
    have hcrew := crew_nodup h.sound (lt_size_of_mem_inside hv)
    -- neither the hub nor anybody inside is on the ring
    have hseated : ∀ u, u = (d.ring c).hub ∨ u ∈ (d.ring c).inside → u ∉ (e.ring c).order := by
      rintro u hu hmem
      have hmem := he.order_perm.mem_iff.mp hmem
      obtain ⟨hhub, hdisjoint⟩ := List.nodup_cons.mp hcrew
      rcases hu with rfl | hu
      · exact hhub (List.mem_append_left _ hmem)
      · exact (List.nodup_append.mp hdisjoint).2.2 u hmem u hu rfl
    refine (h.kept c).congr ?_ ?_ ?_ (fun u hu => ?_) v ?_
    · rw [ring_placeMembers, he.hub_eq]
    · rw [ring_placeMembers, he.inside_eq]
    · rw [ring_placeMembers, he.radius_eq]
    · rw [hbody, if_neg (hseated u hu), he.box_eq]
    · rwa [ring_placeMembers, he.inside_eq]
  · rw [ring_placeMembers, he.inside_eq]
    exact fun hinside hnil => h.manned c hinside (List.nil_perm.mp (hnil ▸ he.order_perm))

theorem rotateRing (c : Nat) (angle : ℝ) : Tended members (d.rotateRing c angle) := by
  have hsound : (d.rotateRing c angle).skeleton.Sound members := by
    rw [skeleton_rotateRing]
    exact h.sound
  have hlocal := local_rotateRing h.sound c angle
  rcases d.exists_shuffled_rotateRing c angle with heq | ⟨e, he, heq⟩
  · rwa [heq]
  · rw [heq] at hsound hlocal ⊢
    exact h.shuffled he hsound hlocal

theorem swapWithNext (c i : Nat) : Tended members (d.swapWithNext c i) := by
  have hsound : (d.swapWithNext c i).skeleton.Sound members := by
    rw [skeleton_swapWithNext h.sound.seated]
    exact h.sound.reorder (CyclicOrder.exchange_perm _ _ _)
  have hlocal := local_swapWithNext h.sound c i
  rcases d.exists_shuffled_swapWithNext c i with heq | ⟨e, he, heq⟩
  · rwa [heq]
  · rw [heq] at hsound hlocal ⊢
    exact h.shuffled he hsound hlocal

theorem reverseRing (c : Nat) : Tended members (d.reverseRing c) := by
  have hsound : (d.reverseRing c).skeleton.Sound members := by
    rw [skeleton_reverseRing h.sound.seated]
    exact h.sound.reorder (CyclicOrder.reverse_perm _)
  have hlocal := local_reverseRing h.sound c
  rcases d.exists_shuffled_reverseRing c with heq | ⟨e, he, heq⟩
  · rwa [heq]
  · rw [heq] at hsound hlocal ⊢
    exact h.shuffled he hsound hlocal

theorem exchanges {held pairs : List (Nat × Nat)} (hexchanges : Exchanges held d pairs d') :
    Tended members d' := by
  induction hexchanges with
  | done => exact h
  | exchange _ _ _ _ _ ih => exact ih (h.swapWithNext _ _)
  | takeBack _ _ _ _ _ ih => exact ih ((h.swapWithNext _ _).swapWithNext _ _)

theorem performExchanges (m : ExchangeMemory) : Tended members (d.performExchanges m).2.1 := by
  obtain ⟨d', hexchanges, heq⟩ := d.exists_exchanges m
  rw [heq]
  exact (h.exchanges hexchanges).of_figure d'.figure_clearPulls

theorem tryReverse (c : Nat) : Tended members (d.tryReverse c).2 := by
  unfold Drawing.tryReverse
  split
  · split
    · split
      · exact (h.reverseRing c).of_figure (figure_modifyRing _ c (fun _ => rfl) fun _ => rfl)
      · exact h
    · exact h
  · exact h

theorem move (cooling : ℝ) (gather : Bool) : Tended members (d.move cooling gather).1 where
  toSheltered := .move h.sound cooling gather
  manned c := by
    have hring : (((d.move cooling gather).1).ring c) = d.ring c :=
      ring_of_rings (rings_move cooling gather d) c
    rw [hring]
    exact h.manned c

end Tended

/-! ## Moving inside -/

/-- Three members stay on a ring when others go inside. -/
theorem order_moveMembersInside_ne_nil (c budget : Nat) (horder : (d.ring c).order ≠ []) :
    ((moveMembersInside c budget d).2.ring c).order ≠ [] := by
  induction budget generalizing d with
  | zero => exact horder
  | succ budget ih =>
      rw [moveMembersInside]
      split
      next hlong =>
        split
        next => exact horder
        next v hv =>
          have hleft : (d.ring c).order.length - 1 ≤ ((d.moveInside c v).ring c).order.length := by
            rcases d.ring_moveInside_cases c v with hring | ⟨i, hring⟩
            · rw [hring]
              exact Nat.sub_le _ _
            · rw [hring]
              exact List.le_length_eraseIdx _ i
          apply ih
          change ((d.moveInside c v).ring c).order ≠ []
          refine List.ne_nil_of_length_pos ?_
          omega
      next => exact horder

theorem moveMembersInside_of_nil {c : Nat} (budget : Nat) (horder : (d.ring c).order = []) :
    (moveMembersInside c budget d).2 = d := by
  cases budget with
  | zero => rfl
  | succ budget =>
      rw [moveMembersInside, if_neg]
      rw [horder]
      exact Nat.not_lt_zero 3

theorem Tended.relocateOnRing (share separation : ℝ) {state : Nat × Drawing ℝ} (c : Nat)
    (h : Tended members state.2) :
    Tended members (relocateOnRing share separation state c).2 := by
  rcases relocated_cases h.sound share separation c with heq | ⟨budget, hskeleton, hlocal, hinside⟩
  · rwa [heq]
  · have hring : ((Drawing.relocateOnRing share separation state c).2.ring c).shape =
        ((moveMembersInside c budget state.2).2.ring c).shape :=
      congrArg (fun s => s.ring c) hskeleton
    obtain ⟨-, horder, hlisted, -⟩ := RingShape.mk.inj hring
    refine h.of_local ?_ hlocal hinside ?_
    · rw [hskeleton]
      exact (secludes_moveMembersInside c budget h.sound).sound
    · rw [horder, hlisted]
      by_cases hnil : (state.2.ring c).order = []
      · rw [moveMembersInside_of_nil budget hnil]
        exact h.manned c
      · exact fun _ => order_moveMembersInside_ne_nil c budget hnil

theorem Tended.relocateInside (h : Tended members d) (share separation : ℝ) :
    Tended members (d.relocateInside share separation).2 :=
  List.foldlRecOn (motive := fun state : Nat × Drawing ℝ => Tended members state.2) d.ringNumbers
    (Drawing.relocateOnRing share separation) h fun _ hstate c _ =>
      hstate.relocateOnRing share separation c

end Drawing

/-! ## Operations -/

namespace Operation

variable {members : Nat → List Nat} {d : Drawing ℝ}

/-- An operation that neither lays a ring out around members inside it nor takes one inside without
drawing it back. -/
def Tends : Operation ℝ → Prop
  | .translate _ _ | .rotate _ _ | .swap _ _ | .reverse _ | .refreshExchanges | .performExchanges _
  | .tryReverse _ | .relocateInside _ _ | .gatherForces _ _ | .move _ _ => True
  | _ => False

theorem tended_apply {op : Operation ℝ} (h : Drawing.Tended members d) (hfits : op.Fits d)
    (htends : op.Tends) : Drawing.Tended members (op.apply d) := by
  cases op with
  | translate c delta => exact h.translateRing hfits delta
  | rotate c angle => exact h.rotateRing c angle
  | swap c i => exact h.swapWithNext c i
  | reverse c => exact h.reverseRing c
  | refreshExchanges => exact h.of_figure d.figure_refreshExchanges
  | performExchanges m => exact h.performExchanges m
  | tryReverse c => exact h.tryReverse c
  | relocateInside share separation => exact h.relocateInside share separation
  | gatherForces s connected => exact h.of_figure (d.figure_gatherForces s connected)
  | move cooling gather => exact h.move cooling gather
  | arrange | spread | moveInside | place | pack | tile | centerOn => exact htends.elim

theorem tended_run {ops : List (Operation ℝ)} (h : Drawing.Tended members d)
    (hfits : ∀ op ∈ ops, op.Fits d) (htends : ∀ op ∈ ops, op.Tends) :
    Drawing.Tended members (run ops d) := by
  induction ops generalizing d with
  | nil => exact h
  | cons op rest ih =>
      obtain ⟨hfit, hfits⟩ := List.forall_mem_cons.mp hfits
      obtain ⟨htend, htends⟩ := List.forall_mem_cons.mp htends
      have hmotions := motions_apply (S := fun _ => True) h.sound hfit fun _ _ => trivial
      exact ih (tended_apply h hfit htend)
        (fun op hop => (fits_iff_of_motions hmotions h.sound op).mpr (hfits op hop)) htends

end Operation

/-! ## All operations on a new drawing -/

namespace Run

open Drawing (CoversOrder Enclosed OnCircle Girded)

/-- What the hubs of the rings of a drawing enclose, from the time on when all rings have been laid
out. -/
structure KeepsEnclosure (o : Options ℝ) (d : Drawing ℝ) : Prop where
  /-- A hub covers the members on its ring, whatever is done once the ring is laid out. -/
  coversOrder : ∀ ops : List (Operation ℝ), (∀ op ∈ ops, op.Fits d) →
    (∀ op ∈ ops, ∀ separation ∈ op.separation?, 0 ≤ separation) →
      ∀ c, (∃ op ∈ ops, op.LaysOut c) → CoversOrder (Operation.run ops d) c
  /-- It covers the members inside just if they are not larger than the hub. -/
  enclosed : ∀ layouts : List (Nat × ℝ), (∀ p ∈ layouts, 0 ≤ p.2) →
    (∀ c ∈ d.ringNumbers, c ∈ layouts.map Prod.fst) → ∀ ops : List (Operation ℝ),
      (∀ op ∈ ops, op.Fits d) → (∀ op ∈ ops, op.Tends) →
        (∀ op ∈ ops, ∀ separation ∈ op.separation?, 0 ≤ separation) →
          ∀ c, Enclosed
            (Operation.run (layouts.map (fun p => Operation.spread p.1 p.2) ++ ops) d) c
  /-- In a run a hub covers the members on its ring after the preparation. -/
  afterAll : o.PlacesRings → ∀ calls, ((ofDrawing d o).afterAll calls).stage ≠ .created →
    ∀ c, CoversOrder ((ofDrawing d o).afterAll calls).drawing c

theorem skeleton_run_spread {members : Nat → List Nat} {d : Drawing ℝ}
    (hd : d.skeleton.Seated members) (layouts : List (Nat × ℝ)) :
    (Operation.run (layouts.map fun p => .spread p.1 p.2) d).skeleton = d.skeleton := by
  induction layouts generalizing d with
  | nil => rfl
  | cons p rest ih =>
      have hfirst : (d.spread p.1 p.2).skeleton = d.skeleton := Drawing.skeleton_spread hd p.1 p.2
      exact (ih (hfirst.symm ▸ hd)).trans hfirst

theorem keepsEnclosure {g : Graph ℝ} {o : Options ℝ} {d : Drawing ℝ}
    (h : Drawing.build g o = .ok d) : KeepsEnclosure o d := by
  have hd := Drawing.sound_build h
  have hlasting := Drawing.lasting_girded fun c => (d.ring c).order
  constructor
  case coversOrder =>
    intro ops hfits hseparation c hlaid
    obtain ⟨hcircle, hgirded⟩ := hlasting.run hd hfits hseparation hlaid
    exact hcircle.coversOrder hgirded
  case enclosed =>
    intro layouts hlayouts hall ops hfits htends hseparation c
    let spreads : List (Operation ℝ) := layouts.map fun p => .spread p.1 p.2
    have hfits' : ∀ op ∈ spreads ++ ops, op.Fits d := by
      refine List.forall_mem_append.mpr ⟨List.forall_mem_map.mpr fun p _ => trivial, hfits⟩
    have hseparation' : ∀ op ∈ spreads ++ ops, ∀ s ∈ op.separation?, 0 ≤ s := by
      refine List.forall_mem_append.mpr ⟨List.forall_mem_map.mpr fun p hp s hs => ?_, hseparation⟩
      obtain rfl : p.2 = s := Option.some.inj hs
      exact hlayouts p hp
    have hrun : Operation.run (spreads ++ ops) d =
        Operation.run ops (Operation.run spreads d) := List.foldl_append
    have hskeleton := skeleton_run_spread hd.seated layouts
    have htended : Drawing.Tended (fun c => (d.ring c).order)
        (Operation.run (spreads ++ ops) d) := by
      have hspread := Operation.motions_run (S := fun _ => True) hd
        (List.forall_mem_append.mp hfits').1 fun _ _ _ _ => trivial
      rw [hrun]
      refine Operation.tended_run (.of_nil (hskeleton.symm ▸ hd) fun b => ?_) ?_ htends
      · have hshape : ((Operation.run spreads d).ring b).shape = (d.ring b).shape :=
          congrArg (fun s => s.ring b) hskeleton
        exact (RingShape.mk.inj hshape).2.2.1.trans ((vacant_build h).ring_inside b)
      · exact fun op hop => (Operation.fits_iff_of_motions hspread hd op).mpr (hfits op hop)
    have hgirded : OnCircle (Operation.run (spreads ++ ops) d) c ∧
        Girded (Operation.run (spreads ++ ops) d) c := by
      by_cases hc : c < d.rings.size
      · obtain ⟨p, hp, rfl⟩ := List.mem_map.mp (hall c (List.mem_range.mpr hc))
        refine hlasting.run hd hfits' hseparation' ⟨.spread p.1 p.2, ?_, p.2, Or.inr rfl⟩
        exact List.mem_append_left _ (List.mem_map_of_mem hp)
      · apply hlasting.vacant
        have hmotions := Operation.motions_run (S := fun _ => True) hd hfits' fun _ _ _ _ => trivial
        have hcount : (Operation.run (spreads ++ ops) d).rings.size = d.rings.size :=
          (hmotions.evolves hd).ringCount_eq
        rw [Drawing.ring_eq_blank (hcount ▸ Nat.le_of_not_lt hc)]
        rfl
    exact Drawing.enclosed_of_keptInside hgirded.1 hgirded.2 (htended.kept c) (htended.manned c)
  case afterAll =>
    intro hplaces calls hcreated c
    have henduring := enduring_of_lasting (o := o) hlasting (effectiveSeparation_pos o).le
    obtain ⟨hcircle, hgirded⟩ := henduring.afterAll h hplaces calls hcreated c
    exact hcircle.coversOrder hgirded

end Run

namespace Drawing

/-- A large node and three smaller ones. Their links cross if they are on a ring in this order. -/
noncomputable def wideMember : Graph ℝ where
  nodes := [⟨"h", 300.0, 300.0, none, none, false⟩, ⟨"a", 30.0, 40.0, none, none, false⟩,
    ⟨"b", 30.0, 40.0, none, none, false⟩, ⟨"c", 30.0, 40.0, none, none, false⟩]
  edges := [⟨"hb", "h", "b"⟩, ⟨"ac", "a", "c"⟩]

noncomputable def wideRing : Options ℝ :=
  { (Options.defaults : Options ℝ) with clustering := .cells [["h", "a", "b", "c"]] }

noncomputable abbrev wideStart : Drawing ℝ := ofClusters wideMember wideRing [[0, 1, 2, 3]]

theorem build_wideMember : build wideMember wideRing = .ok wideStart := rfl

theorem firstToMoveInside?_wideStart : wideStart.firstToMoveInside? 0 = some 0 := rfl

/-- Nothing changes the sizes of the four. -/
theorem size_of_motions_wideStart {d : Drawing ℝ} (h : Motions (fun _ => True) wideStart d)
    {v : Nat} (hv : v < 4) : (d.body v).box.size = if v = 0 then (300.0, 300.0) else (30.0, 40.0) := by
  have hside : ∀ {side : ℝ}, 1 ≤ side → Scalar.maxNum side 1.0 = side := by
    intro side hside
    rw [Scalar.maxNum_real]
    norm_num [hside]
  have hstart : (wideStart.body v).box.size = if v = 0 then (300.0, 300.0) else (30.0, 40.0) := by
    interval_cases v
    all_goals exact congrArg₂ Prod.mk (hside (by norm_num)) (hside (by norm_num))
  have hd := sound_build build_wideMember
  rcases (Run.Course.of_steps h).resizes hd v with hsame | ⟨hhub, -⟩
  · rw [hsame, hstart]
  · have hhubs : wideStart.skeleton.plan.hubs = [4] := rfl
    rw [hhubs, List.mem_singleton] at hhub
    omega

/-- The large node goes inside, and the others are laid out around it. -/
theorem relocateInside_wideStart {d : Drawing ℝ} (hd : d.skeleton = wideStart.skeleton)
    (separation : ℝ) : ∃ moved : Drawing ℝ,
      moved.skeleton = wideStart.skeleton.takeInside 0 0 0 ∧
        Motions (fun _ => True) d moved ∧
          (d.relocateInside 0.25 separation).2 = (moved.spread 0 separation).drawnBack 0 := by
  have horder : (d.ring 0).order = [0, 1, 2, 3] := congrArg (fun s => (s.ring 0).order) hd
  have hrings : d.ringNumbers = [0] := congrArg (fun s : Skeleton => List.range s.ringCount) hd
  have hbudget : Scalar.floorNat (((d.ring 0).order.length : ℝ) * 0.25) = 1 := by
    rw [horder]
    norm_num [Scalar.floorNat]
  have hfirst : d.firstToMoveInside? 0 = some 0 :=
    (firstToMoveInside?_congr hd 0).trans firstToMoveInside?_wideStart
  have hmoved : moveMembersInside 0 1 d =
      (1, (d.moveInside 0 0).setCenter 0 (d.insideTarget 0 0)) := by
    rw [moveMembersInside, if_pos (by simp [horder]), hfirst]
    rfl
  have hsound : d.skeleton.Sound fun c => (wideStart.ring c).order :=
    hd ▸ sound_build build_wideMember
  refine ⟨(d.moveInside 0 0).setCenter 0 (d.insideTarget 0 0), ?_, ?_, ?_⟩
  · rw [skeleton_setCenter, skeleton_moveInside hsound.seated (i := 0) (by rw [horder]; rfl), hd]
  · have hmotions := (drifts_moveMembersInside (S := fun _ => True) 0 1 hsound).motions
    rwa [hmoved] at hmotions
  · rw [Drawing.relocateInside, hrings, List.foldl_cons, List.foldl_nil, Drawing.relocateOnRing]
    simp only [hbudget, hmoved]
    rfl

theorem size_drawnBack (d : Drawing ℝ) (c u : Nat) :
    ((d.drawnBack c).body u).box.size = (d.body u).box.size := by
  refine foldl_eq_of_step_eq (fun e : Drawing ℝ => (e.body u).box.size) (fun e v => ?_) _ d
  unfold keepInside
  dsimp only
  split
  · exact view_modifyBody (fun b => b.box.size) e v u fun _ => rfl
  · rfl

/-- The hub is fitted to the others alone, and is smaller than the node inside. -/
theorem width_hub_wideStart_lt {moved : Drawing ℝ}
    (hskeleton : moved.skeleton = wideStart.skeleton.takeInside 0 0 0)
    (hmotions : Motions (fun _ => True) wideStart moved) :
    ((moved.spread 0 12.5).body 4).box.width < 300.0 := by
  have hd := hmotions.sound (sound_build build_wideMember)
  have horder : (moved.ring 0).order = [1, 2, 3] := congrArg (fun s => (s.ring 0).order) hskeleton
  have hhub : (moved.ring 0).hub = 4 := congrArg (fun s => (s.ring 0).hub) hskeleton
  have hdiagonal : ∀ v ∈ [1, 2, 3], (moved.body v).box.diagonal = 50 := by
    intro v hv
    have hsize : (moved.body v).box.size = (30.0, 40.0) := by
      rw [size_of_motions_wideStart hmotions (by simp at hv; omega), if_neg]
      simp at hv
      omega
    obtain ⟨hwidth, hheight⟩ := Prod.mk.inj hsize
    have hsq : (moved.body v).box.diagonal ^ 2 = 50 ^ 2 := by
      rw [Box.diagonal_sq, hwidth, hheight]
      norm_num
    exact (sq_eq_sq₀ (Real.sqrt_nonneg _) (by norm_num)).mp hsq
  have hlongest : moved.longestDiagonal [1, 2, 3] ≤ 50 :=
    longestDiagonal_le_iff.mpr ⟨by norm_num, fun v hv => (hdiagonal v hv).le⟩
  have hradius : moved.spreadRadius 0 12.5 = 187.5 / (2 * Real.pi) := by
    have hspans : moved.spans 0 12.5 = [62.5, 62.5, 62.5] := by
      simp only [spans, horder, List.map_cons, List.map_nil, hdiagonal 1 (by simp),
        hdiagonal 2 (by simp), hdiagonal 3 (by simp)]
      norm_num
    rw [spreadRadius, horder, hspans, Scalar.sum_real]
    norm_num [Scalar.turn]
  have hside := (Prod.mk.inj (size_hub_spread (c := 0) (v := 1) hd (by simp [horder]) 12.5)).1
  have hpi : 187.5 / (2 * Real.pi) < 125 := by
    rw [div_lt_iff₀ (by positivity)]
    linarith [Real.pi_gt_three]
  rw [hhub, spreadSide, horder, hradius] at hside
  rw [hside]
  exact max_lt (by norm_num) (by linarith)

end Drawing

namespace Run

open Drawing (wideMember wideRing wideStart)

theorem keepsEnclosure_wideMember : ∃ d : Drawing ℝ, Drawing.build wideMember wideRing = .ok d ∧
    KeepsEnclosure wideRing d ∧
      ∀ c, Drawing.Enclosed (Operation.run [.spread 0 12.5, .reverse 0, .move 1 false] d) c := by
  have hkeeps := keepsEnclosure Drawing.build_wideMember
  refine ⟨_, Drawing.build_wideMember, hkeeps, ?_⟩
  refine hkeeps.enclosed [(0, 12.5)] ?_ ?_ [.reverse 0, .move 1 false] ?_ ?_ ?_
  · norm_num
  · exact fun c hc => hc
  · simp [Operation.Fits]
  · simp [Operation.Tends]
  · simp [Operation.separation?]

/-- A large node may go inside a ring that is then laid out around smaller ones. So a hub need not
cover all members. -/
theorem not_covered_wideMember : ¬∀ (g : Graph ℝ) (o : Options ℝ) (d : Drawing ℝ)
    (layouts : List (Nat × ℝ)) (ops : List (Operation ℝ)), Drawing.build g o = .ok d →
      (∀ p ∈ layouts, 0 ≤ p.2) → (∀ c ∈ d.ringNumbers, c ∈ layouts.map Prod.fst) →
        (∀ op ∈ ops, op.Fits d) → (∀ op ∈ ops, op.Tends) →
          (∀ op ∈ ops, ∀ separation ∈ op.separation?, 0 ≤ separation) →
            ∀ d', d' = Operation.run (layouts.map (fun p => .spread p.1 p.2) ++ ops) d →
              ∀ c, ∀ v ∈ (d'.ring c).order ++ (d'.ring c).inside,
                (d'.body (d'.ring c).hub).box.Covers (d'.body v).box := by
  intro hall
  have hd := Drawing.sound_build Drawing.build_wideMember
  have hspread : (wideStart.spread 0 12.5).skeleton = wideStart.skeleton :=
    Drawing.skeleton_spread hd.seated 0 12.5
  have hlaid : Drawing.Motions (fun _ => True) wideStart (wideStart.spread 0 12.5) :=
    (Drawing.Drifts.ring (.spread 12.5 trivial)).motions
  obtain ⟨moved, hskeleton, hmotions, heq⟩ := Drawing.relocateInside_wideStart hspread 12.5
  have hmoved := hlaid.trans hmotions
  let d' := (moved.spread 0 12.5).drawnBack 0
  have hfinal : d'.skeleton = wideStart.skeleton.takeInside 0 0 0 := by
    rw [← hskeleton, ← Drawing.skeleton_spread (hmoved.sound hd).seated 0 12.5]
    exact foldl_eq_of_step_eq Drawing.skeleton (fun e v => e.skeleton_keepInside v _ _) _ _
  have hinside : (d'.ring 0).inside = [0] := congrArg (fun s => (s.ring 0).inside) hfinal
  have hhub : (d'.ring 0).hub = 4 := congrArg (fun s => (s.ring 0).hub) hfinal
  have hcovers := hall _ _ _ [(0, 12.5)] [.relocateInside 0.25 12.5] Drawing.build_wideMember
    (by norm_num) (fun c hc => hc) (by simp [Operation.Fits]) (by simp [Operation.Tends])
    (by norm_num [Operation.separation?]) d' heq.symm 0 0
    (List.mem_append_right _ (hinside ▸ List.mem_singleton_self 0))
  have hwidth := hcovers.sides_le.1
  -- the node inside is as wide as ever
  have hnode := Drawing.size_of_motions_wideStart (v := 0)
    (hmoved.trans (Drawing.Drifts.ring (.spread (c := 0) 12.5 trivial)).motions) (by norm_num)
  rw [← Drawing.size_drawnBack _ 0] at hnode
  have hsame := (Prod.mk.inj (Drawing.size_drawnBack (moved.spread 0 12.5) 0 4)).1
  rw [hhub, hsame, (Prod.mk.inj hnode).1] at hwidth
  exact absurd (Drawing.width_hub_wideStart_lt hskeleton hmoved) (not_lt.mpr hwidth)

end Run

end RingLayout
