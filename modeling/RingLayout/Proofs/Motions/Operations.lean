import RingLayout.Proofs.Motions

/-! # The motions of operations

Every operation on a sound drawing is a sequence of motions, provided that a ring moved as a whole
exists and that a placement is one of roots.
-/

namespace RingLayout

namespace Drawing

variable {K : Type} [Scalar K] {S : K → Prop} {members : Nat → List Nat} {d : Drawing K}

/-! ## Exchanges and reversal -/

theorem Exchanges.drifts {held pairs : List (Nat × Nat)} {d' : Drawing K}
    (h : Exchanges held d pairs d') : Drifts S d d' := by
  induction h with
  | done => exact .refl _
  | exchange _ _ _ _ _ ih => exact (Drifts.ring (.swap _)).trans ih
  | takeBack _ _ _ _ _ ih => exact (Drifts.ring (.swap _)).trans ((Drifts.ring (.swap _)).trans ih)

theorem figure_clearPulls (d : Drawing K) : d.clearPulls.figure = d.figure := by
  refine foldl_eq_of_step_eq figure (fun d v => d.figure_modifySeat v ?_ ?_) d.seated d
  · exact fun _ => rfl
  · exact fun _ => rfl

theorem drifts_performExchanges (d : Drawing K) (m : ExchangeMemory) :
    Drifts S d (d.performExchanges m).2.1 := by
  obtain ⟨d', hexchanges, heq⟩ := d.exists_exchanges m
  rw [heq]
  exact hexchanges.drifts.trans (.stir d'.figure_clearPulls)

theorem drifts_tryReverse (d : Drawing K) (c : Nat) : Drifts S d (d.tryReverse c).2 := by
  unfold tryReverse
  split
  · split
    · split
      · have hreverse : Drifts S d (d.reverseRing c) := .ring .reverse
        exact hreverse.trans (.stir (figure_modifyRing _ c (fun _ => rfl) fun _ => rfl))
      · exact .refl _
    · exact .refl _
  · exact .refl _

/-! ## Moving inside -/

theorem drifts_keepInside {v : Nat} (hv : d.skeleton.Adrift v) (center : Point K) (radius : K) :
    Drifts S d (d.keepInside v center radius) := by
  unfold keepInside
  dsimp only
  split
  · exact .setCenter hv _
  · exact .refl _

theorem drifts_moveMembersInside (c budget : Nat) (hd : d.skeleton.Sound members) :
    Drifts S d (moveMembersInside c budget d).2 := by
  induction budget generalizing d with
  | zero => exact .refl _
  | succ budget ih =>
      rw [moveMembersInside]
      split
      · split
        next => exact .refl _
        next v hv =>
          have hmem : v ∈ (d.ring c).order := List.mem_of_find?_eq_some hv
          have hinside : Drifts S d (d.moveInside c v) := Drifts.ring (.withdraw v)
          have hadrift : (d.moveInside c v).skeleton.Adrift v := by
            apply (hinside.sound hd).adrift_of_inside
            rw [skeleton_moveInside hd.seated ((CyclicOrder.idxOf?_eq_iff
              (hd.seated.order_nodup c)).mpr (List.getElem?_idxOf hmem))]
            exact Skeleton.place_takeInside_self _ c _ v
          have hplaced := hinside.trans (.setCenter hadrift (d.insideTarget c v))
          exact hplaced.trans (ih (hplaced.sound hd))
      · exact .refl _

theorem adrift_of_mem_inside (hd : d.skeleton.Sound members) {c v : Nat}
    (hv : v ∈ (d.ring c).inside) : d.skeleton.Adrift v :=
  hd.adrift_of_inside ((hd.seated.inside_iff v c).mpr hv)

theorem drifts_relocateOnRing (share : K) {separation : K} (hS : S separation)
    (state : Nat × Drawing K) (c : Nat) (hd : state.2.skeleton.Sound members) :
    Drifts S state.2 (relocateOnRing share separation state c).2 := by
  have hmoved := drifts_moveMembersInside (S := S) c
    (Scalar.floorNat (((state.2.ring c).order.length : K) * share)) hd
  unfold relocateOnRing
  dsimp only
  split
  · exact hmoved
  · have hspread := hmoved.trans (Drifts.ring (.spread (c := c) separation hS))
    have hsound := hspread.sound hd
    refine hspread.trans (Drifts.foldl id fun d' hd' v hv => ?_)
    exact drifts_keepInside ((hd'.evolves hsound).adrift (adrift_of_mem_inside hsound hv)) _ _

theorem drifts_relocateInside (share : K) {separation : K} (hS : S separation)
    (hd : d.skeleton.Sound members) : Drifts S d (d.relocateInside share separation).2 :=
  Drifts.foldl (s := (0, d)) Prod.snd fun state hstate c _ =>
    drifts_relocateOnRing share hS state c (hstate.sound hd)

/-! ## Forces -/

theorem drifts_gatherForces (s : ForceSettings K) (connected : Bool) (d : Drawing K) :
    Drifts S d (gatherForces s connected d) :=
  .stir (d.figure_gatherForces s connected)

/-- A root that is no hub moves on its own. -/
theorem adrift_of_mem_roots (hd : d.skeleton.Sound members) {v : Nat} (hv : v ∈ d.roots)
    (hhub : (d.body v).role.hub? = none) : d.skeleton.Adrift v := by
  rcases hd.hubbed.root v hv with hfree | ⟨c, hc⟩
  · exact hd.adrift_of_mem_roots hv hfree
  · have hrole : (d.body v).role.place = .hub c := hc
    cases heq : (d.body v).role <;> rw [heq] at hrole hhub <;> cases hrole
    cases hhub

theorem drifts_moveRoot (cooling limit : K) (state : Drawing K × K) {v : Nat}
    (hv : v ∈ state.1.roots) (hd : state.1.skeleton.Sound members) :
    Drifts S state.1 (moveRoot cooling limit state v).1 := by
  unfold moveRoot
  dsimp only
  split
  next => exact .refl _
  next hhub =>
    refine .translateBody (adrift_of_mem_roots hd hv ?_) _
    rwa [Body.isHub, Bool.not_eq_true, Option.isSome_eq_false_iff, Option.isNone_iff_eq_none]
      at hhub

theorem drifts_moveInsideMember (cooling limit : K) (center : Point K) (radius : K)
    (state : Drawing K × K) {v : Nat} (hv : state.1.skeleton.Adrift v) :
    Drifts S state.1 (moveInsideMember cooling limit center radius state v).1 := by
  have hmoved : Drifts S state.1 (state.1.translateBody v
      (displacement cooling limit (state.1.body v).totalForce)) := .translateBody hv _
  refine hmoved.trans (drifts_keepInside ?_ center radius)
  rwa [skeleton_translateBody]

/-- The pulls gathered for the next exchanges. -/
theorem figure_gatherPulls (cooling : K) (pulls : List (Nat × K)) (d : Drawing K) :
    (pulls.foldl (fun d (p : Nat × K) =>
      d.modifySeat p.1 fun s => { s with pull := s.pull + cooling * p.2 }) d).figure = d.figure :=
  foldl_eq_of_step_eq figure
    (fun d p => d.figure_modifySeat p.1 (fun _ => by rfl) fun _ => by rfl) pulls d

theorem drifts_moveRing (cooling limit : K) (gather : Bool) (state : Drawing K × K) {c : Nat}
    (hc : c ∈ state.1.ringNumbers) (hd : state.1.skeleton.Sound members) :
    Drifts S state.1 (moveRing cooling limit gather state c).1 := by
  let pulls := (state.1.ring c).order.zip (state.1.splitForces c).1
  let gathered := if gather then pulls.foldl (fun d p =>
    d.modifySeat p.1 fun s => { s with pull := s.pull + cooling * p.2 }) state.1 else state.1
  have hgather : Drifts S state.1 gathered := by
    simp only [gathered]
    split
    · exact .stir (figure_gatherPulls cooling pulls _)
    · exact .refl _
  have hring : ∀ delta angle,
      Drifts S state.1 ((gathered.translateRing c delta).rotateRing c angle) := by
    intro delta angle
    refine hgather.trans ((Drifts.ring (.translate delta ?_)).trans (.ring (.rotate angle)))
    rw [← hgather.ringNumbers_eq hd] at hc
    exact List.mem_range.mp hc
  have hinside : ∀ (start : Drawing K × K) center radius, Drifts S state.1 start.1 →
      Drifts S state.1 ((state.1.ring c).inside.foldl
        (moveInsideMember cooling limit center radius) start).1 := by
    intro start center radius hstart
    refine hstart.trans (Drifts.foldl Prod.fst fun state' hstate v hv => ?_)
    apply drifts_moveInsideMember
    exact ((hstart.trans hstate).evolves hd).adrift (adrift_of_mem_inside hd hv)
  exact hinside _ _ _ (hring _ _)

theorem drifts_move (cooling : K) (gather : Bool) (hd : d.skeleton.Sound members) :
    Drifts S d (move cooling gather d).1 := by
  let limit := cooling * maxDisplacement
  let state := d.roots.foldl (moveRoot cooling limit) (d, 0.0)
  let final := d.ringNumbers.foldl (moveRing cooling limit gather) state
  have hroots : Drifts S d state.1 := by
    refine Drifts.foldl (s := (d, 0.0)) Prod.fst fun state hstate v hv => ?_
    rw [← hstate.roots_eq hd] at hv
    exact drifts_moveRoot cooling limit state hv (hstate.sound hd)
  have hrings : Drifts S state.1 final.1 := by
    refine Drifts.foldl (s := state) Prod.fst fun state' hstate c hc => ?_
    rw [← (hroots.trans hstate).ringNumbers_eq hd] at hc
    exact drifts_moveRing cooling limit gather state' hc (hstate.sound (hroots.sound hd))
  have hclear : (move cooling gather d).1 = final.1.unforced := rfl
  rw [hclear]
  exact (hroots.trans hrings).trans (.stir final.1.figure_unforced)

/-! ## Packing, tiling, centering -/

theorem lt_size_of_hub? (hd : d.skeleton.Sound members) {v c : Nat}
    (hhub : (d.body v).role.hub? = some c) : c < d.rings.size := by
  refine (hd.hubbed.of_hub v c ?_).1
  change (d.body v).role.place = _
  cases hrole : (d.body v).role <;> rw [hrole] at hhub <;> cases hhub
  rfl

theorem drifts_translateRoot (delta : Point K) (hd : d.skeleton.Sound members) {v : Nat}
    (hv : v ∈ d.roots) : Drifts S d (translateRoot delta d v) := by
  unfold translateRoot
  split
  next c hhub => exact .ring (.translate delta (lt_size_of_hub? hd hhub))
  next hhub => exact .translateBody (adrift_of_mem_roots hd hv hhub) delta

theorem drifts_lineUp (spacing cursor : K) {items : List (Extent K × List Nat)}
    (hd : d.skeleton.Sound members) (hitems : ∀ p ∈ items, ∀ v ∈ p.2, v ∈ d.roots) :
    Drifts S d (lineUp spacing cursor items d) := by
  induction items generalizing cursor d with
  | nil => exact .refl _
  | cons item rest ih =>
      obtain ⟨hitem, hrest⟩ := List.forall_mem_cons.mp hitems
      have hmoved : Drifts S d (if 1e-6 < Scalar.abs (cursor - item.1.minX) then
          item.2.foldl (translateRoot ⟨cursor - item.1.minX, 0.0⟩) d else d) := by
        split
        · refine Drifts.foldl id fun d' (hd' : Drifts S d d') v hv => ?_
          apply drifts_translateRoot _ (hd'.sound hd)
          rw [hd'.roots_eq hd]
          exact hitem v hv
        · exact .refl _
      refine hmoved.trans (ih _ (hmoved.sound hd) ?_)
      rw [hmoved.roots_eq hd]
      exact hrest

/-- Components consist of roots. -/
theorem mem_roots_of_mem_componentExtents (d : Drawing K) :
    ∀ p ∈ d.componentExtents, ∀ v ∈ p.2, v ∈ d.roots := by
  intro p hp v hv
  obtain ⟨component, hcomponent, hextent⟩ := List.mem_filterMap.mp hp
  obtain ⟨e, -, rfl⟩ := Option.map_eq_some_iff.mp hextent
  obtain ⟨i, hi, rfl⟩ := List.mem_map.mp hv
  obtain ⟨u, hu, hmem⟩ := d.classes_rootComponents.class_of component hcomponent
  have hlt := (Adjacency.mutual_ofPairs d.rootPairs_lt).lt_of_reaches
    (by rwa [Adjacency.size_ofPairs]) ((hmem i).mp hi)
  rw [Adjacency.size_ofPairs] at hlt
  rw [List.getD_eq_getElem?_getD, List.getElem?_eq_getElem hlt]
  exact List.getElem_mem hlt

theorem drifts_packComponents (spacing : K) (hd : d.skeleton.Sound members) :
    Drifts S d (d.packComponents spacing).2 := by
  unfold packComponents
  dsimp only
  split
  · exact .refl _
  · split
    · exact .refl _
    · split
      next => exact .refl _
      next e roots rest heq =>
        apply drifts_lineUp _ _ hd
        intro p hp
        exact d.mem_roots_of_mem_componentExtents p (List.mem_mergeSort.mp hp)

theorem motions_tileIsolated (paddingX paddingY : K) (hd : d.skeleton.Sound members) :
    Motions S d (d.tileIsolated paddingX paddingY) := by
  have htiles : ∀ (startX rowWidth padX padY : K) (cursor : TileCursor K),
      Motions S d (d.tiled.foldl (placeTile startX rowWidth padX padY) (cursor, d)).2 := by
    intro startX rowWidth padX padY cursor
    refine Motions.foldl (s := (cursor, d)) Prod.snd fun state hstate v hv => ?_
    have htiled : state.2.tiled = d.tiled := (hstate.evolves hd).tiled_eq
    rw [← htiled] at hv
    exact .single (.tile v _ _ hv)
  unfold tileIsolated
  dsimp only
  split <;> exact htiles _ _ _ _ _

theorem motions_centerOn (d : Drawing K) (target : Point K) : Motions S d (d.centerOn target) := by
  unfold centerOn
  split
  · exact .single (.shift _)
  · exact .refl _

/-! ## Placement -/

/-- Items that stand for roots are placed by motions. -/
theorem drifts_place {p : Placement K} (hd : d.skeleton.Sound members)
    (hp : ∀ i ∈ p.items, i.root ∈ d.roots) : Drifts S d (p.apply d) := by
  rw [Placement.apply, ← Array.foldl_toList]
  refine Drifts.foldl id fun d' (hd' : Drifts S d d') i hi => ?_
  have hsound := hd'.sound hd
  have hroot : i.root ∈ d'.roots := by
    rw [hd'.roots_eq hd]
    exact hp i (Array.mem_toList_iff.mp hi)
  unfold Placement.applyItem
  dsimp only [id]
  split
  next c hhub => exact .ring (.translate _ (lt_size_of_hub? hsound hhub))
  next hhub => exact .setCenter (adrift_of_mem_roots hsound hroot hhub) _

end Drawing

namespace Operation

variable {K : Type} [Scalar K] {S : K → Prop} {members : Nat → List Nat} {d d' : Drawing K}

/-- A ring that is moved as a whole is there, and what is placed are roots. -/
def Fits (d : Drawing K) : Operation K → Prop
  | .translate c _ => c < d.rings.size
  | .place p => ∀ i ∈ p.items, i.root ∈ d.roots
  | _ => True

/-- The separation that an operation lays rings out for. -/
def separation? : Operation K → Option K
  | .arrange _ separation => some separation
  | .spread _ separation => some separation
  | .relocateInside _ separation => some separation
  | _ => none

theorem fits_iff_of_motions (h : Drawing.Motions S d d') (hd : d.skeleton.Sound members)
    (op : Operation K) : op.Fits d' ↔ op.Fits d := by
  cases op with
  | translate c delta =>
      have hcount : d'.rings.size = d.rings.size := (h.evolves hd).ringCount_eq
      rw [Fits, Fits, hcount]
  | place p =>
      have hroots : d'.roots = d.roots := (h.evolves hd).roots_eq
      rw [Fits, Fits, hroots]
  | _ => exact Iff.rfl

theorem motions_apply {op : Operation K} (hd : d.skeleton.Sound members) (hfits : op.Fits d)
    (hS : ∀ separation ∈ op.separation?, S separation) : Drawing.Motions S d (op.apply d) := by
  cases op with
  | arrange c separation => exact (Drawing.Drifts.ring (.arrange (c := c) separation (hS _ rfl))).motions
  | spread c separation => exact (Drawing.Drifts.ring (.spread (c := c) separation (hS _ rfl))).motions
  | translate c delta => exact (Drawing.Drifts.ring (.translate delta hfits)).motions
  | rotate c angle => exact (Drawing.Drifts.ring (.rotate (c := c) angle)).motions
  | swap c i => exact (Drawing.Drifts.ring (.swap (c := c) i)).motions
  | reverse c => exact (Drawing.Drifts.ring (.reverse (c := c))).motions
  | moveInside c v => exact (Drawing.Drifts.ring (.withdraw (c := c) v)).motions
  | refreshExchanges => exact (Drawing.Drifts.stir d.figure_refreshExchanges).motions
  | performExchanges m => exact (d.drifts_performExchanges m).motions
  | tryReverse c => exact (d.drifts_tryReverse c).motions
  | relocateInside share separation => exact (Drawing.drifts_relocateInside share (hS _ rfl) hd).motions
  | gatherForces s connected => exact (d.drifts_gatherForces s connected).motions
  | move cooling gather => exact (Drawing.drifts_move cooling gather hd).motions
  | place p => exact (Drawing.drifts_place hd hfits).motions
  | pack spacing => exact (Drawing.drifts_packComponents spacing hd).motions
  | tile paddingX paddingY => exact Drawing.motions_tileIsolated paddingX paddingY hd
  | centerOn target => exact d.motions_centerOn target

/-- A ring that is not there and a placement of other bodies than roots may move bodies in ways that
are no motions, but not the skeleton. So the skeleton evolves in every operation. -/
theorem evolves_apply (hd : d.skeleton.Sound members) (op : Operation K) :
    Skeleton.Evolves members d.skeleton (op.apply d).skeleton := by
  have hmotions : op.Fits d → Skeleton.Evolves members d.skeleton (op.apply d).skeleton :=
    fun hfits => (motions_apply (S := fun _ => True) hd hfits fun _ _ => trivial).evolves hd
  cases op with
  | translate c delta =>
      rw [apply, Drawing.skeleton_translateRing]
      exact .refl hd
  | place p =>
      rw [apply, Placement.skeleton_apply]
      exact .refl hd
  | _ => exact hmotions trivial

theorem evolves_run (hd : d.skeleton.Sound members) (ops : List (Operation K)) :
    Skeleton.Evolves members d.skeleton (run ops d).skeleton := by
  induction ops generalizing d with
  | nil => exact .refl hd
  | cons op ops ih =>
      have hfirst := evolves_apply hd op
      exact hfirst.trans (ih hfirst.sound)

theorem sound_run (hd : d.skeleton.Sound members) (ops : List (Operation K)) :
    (run ops d).skeleton.Sound members :=
  (evolves_run hd ops).sound

theorem motions_run {ops : List (Operation K)} (hd : d.skeleton.Sound members)
    (hfits : ∀ op ∈ ops, op.Fits d) (hS : ∀ op ∈ ops, ∀ separation ∈ op.separation?, S separation) :
    Drawing.Motions S d (run ops d) := by
  refine Drawing.Motions.foldl id fun d' (hd' : Drawing.Motions S d d') op hop => ?_
  have hfits' := (fits_iff_of_motions hd' hd op).mpr (hfits op hop)
  exact motions_apply (hd'.sound hd) hfits' (hS op hop)

/-- An operation among others is applied to a drawing that motions lead to, and motions lead on
from what it makes of it. -/
theorem exists_motions_run {ops : List (Operation K)} (hd : d.skeleton.Sound members)
    (hfits : ∀ op ∈ ops, op.Fits d) (hS : ∀ op ∈ ops, ∀ separation ∈ op.separation?, S separation)
    {op : Operation K} (hop : op ∈ ops) : ∃ e, Drawing.Motions S d e ∧
      (op.apply e).skeleton.Sound members ∧ Drawing.Motions S (op.apply e) (run ops d) := by
  obtain ⟨before, later, rfl⟩ := List.append_of_mem hop
  simp only [List.forall_mem_append, List.forall_mem_cons] at hfits hS
  have hbefore : Drawing.Motions S d (run before d) := motions_run hd hfits.1 hS.1
  have hsound := hbefore.sound hd
  have hall := hbefore.trans
    (motions_apply hsound ((fits_iff_of_motions hbefore hd op).mpr hfits.2.1) hS.2.1)
  have hrun : run (before ++ op :: later) d = run later (op.apply (run before d)) := by
    rw [run, List.foldl_append, List.foldl_cons]
    rfl
  refine ⟨run before d, hbefore, hall.sound hd, ?_⟩
  rw [hrun]
  refine motions_run (hall.sound hd) (fun op hop => ?_) hS.2.2
  exact (fits_iff_of_motions hall hd op).mpr (hfits.2.2 op hop)

/-- An operation that lays a ring out. -/
def LaysOut (c : Nat) (op : Operation K) : Prop :=
  ∃ separation, op = .arrange c separation ∨ op = .spread c separation

end Operation

/-- What holds of a ring once it is laid out, for separations of a certain kind, and is kept by
motions. -/
structure Drawing.Lasting {K : Type} [Scalar K] (S : K → Prop) (members : Nat → List Nat)
    (P : Nat → Drawing K → Prop) : Prop where
  /-- Of rings without members it always holds. -/
  vacant : ∀ (d : Drawing K) c, (d.ring c).order = [] → P c d
  spread : ∀ (d : Drawing K) c separation, d.skeleton.Sound members → S separation →
    P c (d.spread c separation)
  kept : ∀ (d d' : Drawing K) c, d.skeleton.Sound members → P c d → Motion S d d' → P c d'

/-- It holds of a ring after operations one of which lays the ring out. -/
theorem Drawing.Lasting.run {K : Type} [Scalar K] {S : K → Prop} {members : Nat → List Nat}
    {P : Nat → Drawing K → Prop} {d : Drawing K} (h : Lasting S members P)
    (hd : d.skeleton.Sound members) {ops : List (Operation K)} (hfits : ∀ op ∈ ops, op.Fits d)
    (hS : ∀ op ∈ ops, ∀ separation ∈ op.separation?, S separation) {c : Nat}
    (hc : ∃ op ∈ ops, op.LaysOut c) : P c (Operation.run ops d) := by
  obtain ⟨op, hop, separation, hlays⟩ := hc
  obtain ⟨e, hbefore, hsound, hafter⟩ := Operation.exists_motions_run hd hfits hS hop
  have hseparation : S separation := by
    apply hS op hop
    rcases hlays with rfl | rfl <;> rfl
  have he := hbefore.sound hd
  refine hafter.induct hsound (P := P c) ?_ fun e e' he hP hmotion => h.kept e e' c he hP hmotion
  rcases hlays with rfl | rfl
  · change P c (Run.arrangeRing e c separation)
    rw [arrangeRing_eq]
    exact h.spread _ c separation (sound_arranged he c) hseparation
  · exact h.spread e c separation he hseparation

end RingLayout
