import Mathlib.Logic.Relation
import RingLayout.Proofs.Plan
import RingLayout.Proofs.Untangling

/-! # What operations are made of

All operations on drawings come down to a few motions: a body on no seat moves on its own, a ring
moves as a whole or has its seats changed, and everything moves at once. Whatever motions keep is
kept by every operation and by every run. Before it is packed, a run only drifts: nothing that is
set aside moves.
-/

namespace RingLayout

/-- The width and the height of a box. -/
def Box.size {K : Type} (b : Box K) : K × K := (b.width, b.height)

/-- What can be seen of a drawing: its skeleton, and where everything is. -/
@[ext] structure Figure (K : Type) where
  skeleton : Skeleton
  radius : Nat → K
  box : Nat → Box K
  angle : Nat → K

variable {K : Type} [Scalar K]

/-- The angle of a body's seat. -/
def Body.angle (b : Body K) : K :=
  match b.seat? with
  | some s => s.angle
  | none => 0.0

namespace Drawing

def figure (d : Drawing K) : Figure K where
  skeleton := d.skeleton
  radius c := (d.ring c).radius
  box v := (d.body v).box
  angle v := (d.body v).angle

theorem angleOf_eq (d : Drawing K) (v : Nat) : d.angleOf v = (d.body v).angle := by
  unfold angleOf seatOf Body.angle
  cases (d.body v).seat? <;> rfl

/-! ## What is not seen -/

theorem angle_modifySeat (d : Drawing K) (v u : Nat) {f : Seat K → Seat K}
    (hf : ∀ s, (f s).angle = s.angle) : ((d.modifySeat v f).body u).angle = (d.body u).angle := by
  refine view_modifyBody Body.angle d v u fun b => ?_
  simp only [Body.angle, Body.seat?]
  cases b.role with
  | seated s => exact hf s
  | _ => rfl

theorem box_modifySeat (d : Drawing K) (v u : Nat) (f : Seat K → Seat K) :
    ((d.modifySeat v f).body u).box = (d.body u).box :=
  view_modifyBody Body.box d v u fun _ => rfl

theorem box_swung (d : Drawing K) (c : Nat) (angle : K) (u : Nat) :
    ((d.swung c angle).body u).box = (d.body u).box :=
  foldl_eq_of_step_eq (fun e : Drawing K => (e.body u).box) (fun e v => e.box_modifySeat v u _) _ d

theorem angle_renumber (d : Drawing K) (start : Nat) (order : List Nat) (u : Nat) :
    ((d.renumber start order).body u).angle = (d.body u).angle := by
  refine foldl_eq_of_step_eq (fun d => (d.body u).angle) (fun d p => ?_) (order.zipIdx start) d
  exact d.angle_modifySeat p.1 u fun _ => rfl

theorem box_renumber (d : Drawing K) (start : Nat) (order : List Nat) (u : Nat) :
    ((d.renumber start order).body u).box = (d.body u).box := by
  refine foldl_eq_of_step_eq (fun d => (d.body u).box) (fun d p => ?_) (order.zipIdx start) d
  exact d.box_modifySeat p.1 u _

omit [Scalar K] in
theorem rings_renumber (d : Drawing K) (start : Nat) (order : List Nat) :
    (d.renumber start order).rings = d.rings := by
  refine foldl_eq_of_step_eq Drawing.rings (fun d p => ?_) (order.zipIdx start) d
  rfl

theorem figure_modifySeat (d : Drawing K) (v : Nat) {f : Seat K → Seat K}
    (hplace : ∀ s, (Role.seated (f s)).place = (Role.seated s).place)
    (hangle : ∀ s, (f s).angle = s.angle) : (d.modifySeat v f).figure = d.figure := by
  ext1
  case skeleton => exact d.skeleton_modifySeat v hplace
  case radius => rfl
  case box => exact funext fun u => d.box_modifySeat v u f
  case angle => exact funext fun u => d.angle_modifySeat v u hangle

theorem figure_modifyRing (d : Drawing K) (c : Nat) {f : Ring K → Ring K}
    (hshape : ∀ r, (f r).shape = r.shape) (hradius : ∀ r, (f r).radius = r.radius) :
    (d.modifyRing c f).figure = d.figure := by
  ext1
  case skeleton => exact d.skeleton_modifyRing_eq c hshape
  case radius =>
    ext b
    simp only [figure, modifyRing, ring, Array.getD_eq_getD_getElem?, Array.getElem?_modify]
    split
    · cases d.rings[b]? with
      | none => rfl
      | some r => exact hradius r
    · rfl
  all_goals rfl

@[simp] theorem figure_unforced (d : Drawing K) : d.unforced.figure = d.figure := by
  ext1
  case skeleton => exact d.skeleton_unforced
  case radius => rfl
  case box => exact funext fun v => view_mapBodies Body.box d v fun _ => rfl
  case angle => exact funext fun v => view_mapBodies Body.angle d v fun _ => rfl

@[simp] theorem figure_gatherForces (s : ForceSettings K) (connected : Bool) (d : Drawing K) :
    (gatherForces s connected d).figure = d.figure := by
  rw [← figure_unforced, unforced_gatherForces, figure_unforced]

@[simp] theorem figure_observeOrder (d : Drawing K) (c : Nat) :
    (d.observeOrder c).figure = d.figure :=
  d.figure_modifyRing c (fun _ => rfl) fun _ => rfl

@[simp] theorem figure_refreshPair (d : Drawing K) (c i : Nat) :
    (refreshPair c d i).figure = d.figure := by
  unfold refreshPair
  dsimp only
  split
  · refine (figure_modifySeat _ _ ?_ ?_).trans (figure_modifySeat d _ ?_ ?_) <;> exact fun _ => rfl
  · rfl

@[simp] theorem figure_refreshExchanges (d : Drawing K) :
    d.refreshExchanges.figure = d.figure := by
  unfold refreshExchanges
  rw [foldl_eq_of_step_eq figure fun d c =>
      foldl_eq_of_step_eq figure (fun d i => d.figure_refreshPair c i) _ d,
    foldl_eq_of_step_eq figure figure_observeOrder]

@[simp] theorem figure_assignIdealLengths (d : Drawing K) (o : Options K) (factor : K) :
    (d.assignIdealLengths o factor).figure = d.figure := by
  ext1
  case skeleton => exact d.skeleton_assignIdealLengths o factor
  all_goals rfl

/-! ## Motions -/

/-- A change of one ring. The separations for which rings are laid out are of a certain kind. -/
inductive RingMotion (S : K → Prop) (c : Nat) (d : Drawing K) : Drawing K → Prop
  | translate (delta : Point K) (hc : c < d.rings.size) : RingMotion S c d (d.translateRing c delta)
  | rotate (angle : K) : RingMotion S c d (d.rotateRing c angle)
  | swap (i : Nat) : RingMotion S c d (d.swapWithNext c i)
  | reverse : RingMotion S c d (d.reverseRing c)
  | withdraw (v : Nat) : RingMotion S c d (d.moveInside c v)
  | spread (separation : K) (h : S separation) : RingMotion S c d (d.spread c separation)
  | arrange (separation : K) (h : S separation) :
      RingMotion S c d (Run.arrangeRing d c separation)

/-- What a simulation is made of. -/
inductive Drift (S : K → Prop) (d : Drawing K) : Drawing K → Prop
  /-- Nothing moves: forces, rules and ideal lengths change. -/
  | stir {d' : Drawing K} (h : d'.figure = d.figure) : Drift S d d'
  | place (v : Nat) (f : Box K → Box K) (hv : d.skeleton.Adrift v)
      (hsize : ∀ b, (f b).size = b.size) :
      Drift S d (d.modifyBody v fun b => { b with box := f b.box })
  | ring (c : Nat) {d' : Drawing K} (h : RingMotion S c d d') : Drift S d d'

/-- What operations are made of. -/
inductive Motion (S : K → Prop) (d : Drawing K) : Drawing K → Prop
  | drift {d' : Drawing K} (h : Drift S d d') : Motion S d d'
  | tile (v : Nat) (left top : K) (hv : v ∈ d.tiled) :
      Motion S d (d.modifyBody v fun b => { b with box := { b.box with left := left, top := top } })
  | shift (delta : Point K) : Motion S d { d with bodies := d.bodies.map (·.translate delta) }

variable {S : K → Prop} {c : Nat} {d d' : Drawing K} {members : Nat → List Nat}

theorem RingMotion.isLocal (h : RingMotion S c d d') (hd : d.skeleton.Sound members) :
    Local c d d' := by
  cases h with
  | translate delta hc => exact local_translateRing hd hc delta
  | rotate angle => exact local_rotateRing hd c angle
  | swap i => exact local_swapWithNext hd c i
  | reverse => exact local_reverseRing hd c
  | withdraw v => exact local_moveInside hd c v
  | spread separation => exact local_spread hd c separation
  | arrange separation => exact local_arrangeRing hd c separation

theorem RingMotion.evolves (h : RingMotion S c d d') (hd : d.skeleton.Sound members) :
    Skeleton.Evolves members d.skeleton d'.skeleton := by
  cases h with
  | translate delta =>
      rw [skeleton_translateRing]
      exact .refl hd
  | rotate angle =>
      rw [skeleton_rotateRing]
      exact .refl hd
  | swap i =>
      rw [skeleton_swapWithNext hd.seated]
      exact hd.evolves_reorder (CyclicOrder.exchange_perm _ _ _)
  | reverse =>
      rw [skeleton_reverseRing hd.seated]
      exact hd.evolves_reorder (CyclicOrder.reverse_perm _)
  | withdraw v =>
      rcases d.moveInside_cases c v with heq | ⟨i, -, -, hv, -⟩
      · rw [heq]
        exact .refl hd
      · rw [skeleton_moveInside hd.seated hv]
        exact hd.evolves_takeInside
          ((CyclicOrder.idxOf?_eq_iff (hd.seated.order_nodup c)).mp hv)
  | spread separation =>
      rw [skeleton_spread hd.seated]
      exact .refl hd
  | arrange separation =>
      rw [skeleton_arrangeRing hd.seated]
      exact hd.evolves_reorder (d.arrangedOrder_perm c)

theorem Drift.evolves (h : Drift S d d') (hd : d.skeleton.Sound members) :
    Skeleton.Evolves members d.skeleton d'.skeleton := by
  cases h with
  | stir h =>
      have heq : d'.skeleton = d.skeleton := congrArg Figure.skeleton h
      rw [heq]
      exact .refl hd
  | place v f =>
      rw [d.skeleton_modifyBody v fun _ => by rfl]
      exact .refl hd
  | ring c h => exact h.evolves hd

theorem Motion.evolves (h : Motion S d d') (hd : d.skeleton.Sound members) :
    Skeleton.Evolves members d.skeleton d'.skeleton := by
  cases h with
  | drift h => exact h.evolves hd
  | tile v left top =>
      rw [d.skeleton_modifyBody v fun _ => by rfl]
      exact .refl hd
  | shift delta =>
      rw [d.skeleton_mapBodies fun _ => by rfl]
      exact .refl hd

/-- A ring and its members are where they were. -/
structure KeepsRing (b : Nat) (d d' : Drawing K) : Prop where
  hub_eq : (d'.ring b).hub = (d.ring b).hub
  order_eq : (d'.ring b).order = (d.ring b).order
  radius_eq : (d'.ring b).radius = (d.ring b).radius
  box_eq : ∀ v, v = (d.ring b).hub ∨ v ∈ (d.ring b).order → (d'.body v).box = (d.body v).box
  angle_eq : ∀ v ∈ (d.ring b).order, d'.angleOf v = d.angleOf v

theorem keepsRing_of_figure (h : d'.figure = d.figure) (b : Nat) : KeepsRing b d d' where
  hub_eq := congrArg (fun f => (f.skeleton.ring b).hub) h
  order_eq := congrArg (fun f => (f.skeleton.ring b).order) h
  radius_eq := congrArg (fun f => f.radius b) h
  box_eq v _ := congrArg (fun f => f.box v) h
  angle_eq v _ := by
    rw [angleOf_eq, angleOf_eq]
    exact congrArg (fun f => f.angle v) h

theorem keepsRing_of_body {b : Nat} (hring : d'.ring b = d.ring b)
    (hbody : ∀ v, v = (d.ring b).hub ∨ v ∈ (d.ring b).order → d'.body v = d.body v) :
    KeepsRing b d d' where
  hub_eq := congrArg Ring.hub hring
  order_eq := congrArg Ring.order hring
  radius_eq := congrArg Ring.radius hring
  box_eq v hv := congrArg Body.box (hbody v hv)
  angle_eq v hv := by rw [angleOf_eq, angleOf_eq, hbody v (Or.inr hv)]

theorem KeepsRing.ringCenter_eq {b : Nat} (h : KeepsRing b d d') :
    d'.ringCenter b = d.ringCenter b := by
  rw [ringCenter, h.hub_eq]
  exact congrArg Box.center (h.box_eq _ (Or.inl rfl))

theorem Local.keepsRing (h : Local c d d') (hd : d.skeleton.Sound members) {b : Nat}
    (hb : b < d.rings.size) (hne : b ≠ c) : KeepsRing b d d' := by
  refine keepsRing_of_body (h.ring_eq b hne) fun v hv => h.body_eq v ?_
  have hring : (d.body v).role.ring? = some b := by
    rcases hv with rfl | hv
    · rw [role_hub hd hb]
      rfl
    · exact ring?_of_mem_order hd hv
  rw [hring]
  exact fun heq => hne (Option.some.inj heq)

/-- A change of the box of a body that is no part of a ring. -/
theorem keepsRing_modifyBox (hd : d.skeleton.Sound members) {b v : Nat} (hb : b < d.rings.size)
    (hv : d.skeleton.Loose v) (f : Box K → Box K) :
    KeepsRing b d (d.modifyBody v fun b => { b with box := f b.box }) := by
  refine ⟨rfl, rfl, rfl, fun u hu => ?_, fun u hu => ?_⟩
  · rw [body_modifyBody_of_ne]
    rintro rfl
    exact hd.not_loose hb hu hv
  · rw [angleOf_eq, angleOf_eq]
    exact view_modifyBody Body.angle d v u fun _ => rfl

/-- What a motion does to a ring: nothing, or it takes the ring along with everything else, or it
is a motion of this ring. -/
theorem Motion.ring_cases (h : Motion S d d') (hd : d.skeleton.Sound members) {b : Nat}
    (hb : b < d.rings.size) :
    KeepsRing b d d' ∨
      (∃ delta : Point K, d' = { d with bodies := d.bodies.map (·.translate delta) }) ∨
        RingMotion S b d d' := by
  cases h with
  | drift h =>
      cases h with
      | stir h => exact Or.inl (keepsRing_of_figure h b)
      | place v f hv => exact Or.inl (keepsRing_modifyBox hd hb hv.1 f)
      | ring c h =>
          by_cases hbc : b = c
          · exact Or.inr (Or.inr (hbc ▸ h))
          · exact Or.inl ((h.isLocal hd).keepsRing hd hb hbc)
  | tile v left top hv =>
      exact Or.inl (keepsRing_modifyBox hd hb (Or.inl (hd.hubbed.tile v hv))
        fun b => { b with left := left, top := top })
  | shift delta => exact Or.inr (Or.inl ⟨delta, rfl⟩)

/-- A loop takes as many steps as its steps do, each from what earlier ones lead to. -/
theorem reflTransGen_foldl {σ α τ : Type} {R : τ → τ → Prop} (view : σ → τ) {step : σ → α → σ}
    {l : List α} {s : σ} (hstep : ∀ s', Relation.ReflTransGen R (view s) (view s') → ∀ a ∈ l,
      Relation.ReflTransGen R (view s') (view (step s' a))) :
    Relation.ReflTransGen R (view s) (view (l.foldl step s)) :=
  List.foldlRecOn (motive := fun s' => Relation.ReflTransGen R (view s) (view s')) l step
    Relation.ReflTransGen.refl fun s' hs' a ha => hs'.trans (hstep s' hs' a ha)

/-- What holds of a sound drawing is kept by steps that keep it and the soundness of drawings. -/
theorem reflTransGen_induct {R : Drawing K → Drawing K → Prop}
    (hsound : ∀ e e', e.skeleton.Sound members → R e e' → e'.skeleton.Sound members)
    (h : Relation.ReflTransGen R d d') (hd : d.skeleton.Sound members) {P : Drawing K → Prop}
    (hstart : P d) (hstep : ∀ e e', e.skeleton.Sound members → P e → R e e' → P e') : P d' := by
  have hboth : d'.skeleton.Sound members ∧ P d' := by
    induction h with
    | refl => exact ⟨hd, hstart⟩
    | tail _ hlast ih => exact ⟨hsound _ _ ih.1 hlast, hstep _ _ ih.1 ih.2 hlast⟩
  exact hboth.2

/-- One motion after the other. -/
def Motions (S : K → Prop) (d d' : Drawing K) : Prop := Relation.ReflTransGen (Motion S) d d'

namespace Motions

theorem refl (d : Drawing K) : Motions S d d := Relation.ReflTransGen.refl

theorem trans {d'' : Drawing K} (h : Motions S d d') (h' : Motions S d' d'') : Motions S d d'' :=
  Relation.ReflTransGen.trans h h'

theorem single (h : Motion S d d') : Motions S d d' := Relation.ReflTransGen.single h

/-- What holds of a sound drawing and is kept by motions of sound drawings is kept in the end. -/
theorem induct (h : Motions S d d') (hd : d.skeleton.Sound members) {P : Drawing K → Prop}
    (hstart : P d)
    (hstep : ∀ e e', e.skeleton.Sound members → P e → Motion S e e' → P e') : P d' :=
  reflTransGen_induct (fun _ _ he hmotion => (hmotion.evolves he).sound) h hd hstart hstep

theorem evolves (h : Motions S d d') (hd : d.skeleton.Sound members) :
    Skeleton.Evolves members d.skeleton d'.skeleton :=
  h.induct hd (P := fun e => Skeleton.Evolves members d.skeleton e.skeleton) (.refl hd)
    fun _ _ he hevolves hmotion => hevolves.trans (hmotion.evolves he)

theorem sound (h : Motions S d d') (hd : d.skeleton.Sound members) : d'.skeleton.Sound members :=
  (h.evolves hd).sound

theorem foldl {σ α : Type} (view : σ → Drawing K) {step : σ → α → σ} {l : List α} {s : σ}
    (hstep : ∀ s', Motions S (view s) (view s') → ∀ a ∈ l,
      Motions S (view s') (view (step s' a))) :
    Motions S (view s) (view (l.foldl step s)) :=
  reflTransGen_foldl view hstep

end Motions

/-- One drift after the other. -/
def Drifts (S : K → Prop) (d d' : Drawing K) : Prop := Relation.ReflTransGen (Drift S) d d'

namespace Drifts

theorem refl (d : Drawing K) : Drifts S d d := Relation.ReflTransGen.refl

theorem trans {d'' : Drawing K} (h : Drifts S d d') (h' : Drifts S d' d'') : Drifts S d d'' :=
  Relation.ReflTransGen.trans h h'

theorem single (h : Drift S d d') : Drifts S d d' := Relation.ReflTransGen.single h

theorem motions (h : Drifts S d d') : Motions S d d' :=
  Relation.ReflTransGen.mono (fun _ _ => Motion.drift) _ _ h

theorem stir (h : d'.figure = d.figure) : Drifts S d d' := .single (.stir h)

theorem ring (h : RingMotion S c d d') : Drifts S d d' := .single (.ring c h)

theorem setCenter {v : Nat} (hv : d.skeleton.Adrift v) (p : Point K) :
    Drifts S d (d.setCenter v p) :=
  .single (.place v (·.recenter p) hv fun _ => rfl)

theorem translateBody {v : Nat} (hv : d.skeleton.Adrift v) (delta : Point K) :
    Drifts S d (d.translateBody v delta) :=
  .single (.place v (·.translate delta) hv fun _ => rfl)

theorem foldl {σ α : Type} (view : σ → Drawing K) {step : σ → α → σ} {l : List α} {s : σ}
    (hstep : ∀ s', Drifts S (view s) (view s') → ∀ a ∈ l,
      Drifts S (view s') (view (step s' a))) :
    Drifts S (view s) (view (l.foldl step s)) :=
  reflTransGen_foldl view hstep

section

variable (h : Drifts S d d') (hd : d.skeleton.Sound members)
include h hd

/-- What holds of a sound drawing and is kept by drifts of sound drawings is kept in the end. -/
theorem induct {P : Drawing K → Prop} (hstart : P d)
    (hstep : ∀ e e', e.skeleton.Sound members → P e → Drift S e e' → P e') : P d' :=
  reflTransGen_induct (fun _ _ he hdrift => (hdrift.evolves he).sound) h hd hstart hstep

theorem evolves : Skeleton.Evolves members d.skeleton d'.skeleton := h.motions.evolves hd

theorem sound : d'.skeleton.Sound members := (h.evolves hd).sound

theorem roots_eq : d'.roots = d.roots := (h.evolves hd).roots_eq

theorem ringNumbers_eq : d'.ringNumbers = d.ringNumbers :=
  congrArg List.range (h.evolves hd).ringCount_eq

end

end Drifts

end Drawing

end RingLayout
