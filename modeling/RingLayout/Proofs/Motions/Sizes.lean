import RingLayout.Proofs.Motions.Members
import RingLayout.Proofs.Motions.Run

/-! # Sizes

Nothing changes the size of a body but the fitting of a hub to its circle, which makes a square of
the hub. The boxes of bodies that are set aside do not change at all until they are tiled.
-/

namespace RingLayout

/-- The hubs of a plan. -/
def Plan.hubs (p : Plan) : List Nat := (List.range p.ringCount).map p.hub

/-- A square with sides of at least 1. -/
def Box.IsFitted {K : Type} [Scalar K] (b : Box K) : Prop :=
  ∃ side : K, b.size = (Scalar.maxNum side 1.0, Scalar.maxNum side 1.0)

namespace Drawing

variable {K : Type} [Scalar K] {S : K → Prop} {members : Nat → List Nat} {c : Nat}
  {d d' d'' : Drawing K}

/-! ## Sizes in single changes -/

theorem size_translateBody (d : Drawing K) (v u : Nat) (delta : Point K) :
    ((d.translateBody v delta).body u).box.size = (d.body u).box.size :=
  view_modifyBody (fun b => b.box.size) d v u fun _ => rfl

theorem size_placeMembers (d : Drawing K) (c u : Nat) :
    ((d.placeMembers c).body u).box.size = (d.body u).box.size :=
  view_placeMembers (fun b => b.box.size) (fun _ _ => rfl) d c u

theorem size_translateRing (d : Drawing K) (c : Nat) (delta : Point K) (u : Nat) :
    ((d.translateRing c delta).body u).box.size = (d.body u).box.size := by
  have hmove : ∀ (l : List Nat) (e : Drawing K),
      ((l.foldl (fun e v => e.translateBody v delta) e).body u).box.size = (e.body u).box.size :=
    foldl_eq_of_step_eq (fun e : Drawing K => (e.body u).box.size) fun e v =>
      e.size_translateBody v u delta
  simp only [translateRing, hmove, size_translateBody]

theorem size_rotateRing (d : Drawing K) (c : Nat) (angle : K) (u : Nat) :
    ((d.rotateRing c angle).body u).box.size = (d.body u).box.size := by
  rw [rotateRing_eq]
  split
  · rfl
  · rw [size_placeMembers]
    refine foldl_eq_of_step_eq (fun e : Drawing K => (e.body u).box.size) (fun e v => ?_) _ d
    exact congrArg Box.size (e.box_modifySeat v u _)

theorem size_swapWithNext (d : Drawing K) (c i u : Nat) :
    ((d.swapWithNext c i).body u).box.size = (d.body u).box.size := by
  rcases d.swapWithNext_cases c i with heq | ⟨j, v, w, -, -, -, -, heq⟩
  · rw [heq]
  · rw [heq, size_placeMembers]
    exact congrArg Box.size ((box_modifySeat _ w u _).trans (d.box_modifySeat v u _))

theorem size_reverseRing (d : Drawing K) (c u : Nat) :
    ((d.reverseRing c).body u).box.size = (d.body u).box.size := by
  rw [reverseRing_eq]
  split
  · rfl
  · rw [size_placeMembers]
    refine congrArg Box.size ((box_renumber _ 0 _ u).trans ?_)
    refine foldl_eq_of_step_eq (fun e : Drawing K => (e.body u).box) (fun e v => ?_) _ d
    exact e.box_modifySeat v u _

theorem size_moveInside (d : Drawing K) (c v u : Nat) :
    ((d.moveInside c v).body u).box.size = (d.body u).box.size := by
  rcases d.moveInside_cases c v with heq | ⟨i, seated, inside, -, heq⟩
  · rw [heq]
  · rw [heq]
    exact congrArg Box.size (d.box_withdrawn c i v u)

/-! ## Sizes in motions -/

/-- Bodies keep their sizes, but for hubs that are fitted to their circles. -/
def Resizes (d d' : Drawing K) : Prop :=
  ∀ v, (d'.body v).box.size = (d.body v).box.size ∨
    v ∈ d.skeleton.plan.hubs ∧ (d'.body v).box.IsFitted

namespace Resizes

theorem of_eq (h : ∀ v, (d'.body v).box.size = (d.body v).box.size) : Resizes d d' :=
  fun v => Or.inl (h v)

theorem trans (h : Resizes d d') (hplan : d'.skeleton.plan = d.skeleton.plan)
    (h' : Resizes d' d'') : Resizes d d'' := by
  intro v
  rcases h' v with hsame | hfitted
  · rcases h v with hfirst | ⟨hhub, side, hside⟩
    · exact Or.inl (hsame.trans hfirst)
    · exact Or.inr ⟨hhub, side, hsame.trans hside⟩
  · exact Or.inr (hplan ▸ hfitted)

end Resizes

theorem mem_hubs {c : Nat} (hc : c < d.rings.size) : (d.ring c).hub ∈ d.skeleton.plan.hubs :=
  List.mem_map_of_mem (List.mem_range.mpr hc)

theorem isFitted_fitHub (d : Drawing K) {c : Nat} (hhub : (d.ring c).hub < d.bodies.size) :
    ((d.fitHub c).body (d.ring c).hub).box.IsFitted := by
  rw [fitHub, body_modifyBody d hhub, if_pos rfl]
  exact ⟨_, rfl⟩

theorem resizes_spread (hd : d.skeleton.Sound members) (c : Nat) (separation : K) :
    Resizes d (d.spread c separation) := by
  have hturned : ∀ u, ((d.turned c separation).body u).box = (d.body u).box :=
    fun u => box_assignAngles ..
  rw [spread_eq]
  split
  · exact .of_eq fun u => congrArg Box.size (hturned u)
  next horder =>
    obtain ⟨v, hv⟩ := List.exists_mem_of_ne_nil _ horder
    have hc := lt_size_of_mem_order hv
    have hring : ((d.turned c separation).ring c).hub = (d.ring c).hub :=
      congrArg (fun s => (s.ring c).hub) (skeleton_turned hd.seated c separation)
    have hsize : (d.ring c).hub < (d.turned c separation).bodies.size := by
      have hcount : (d.turned c separation).bodies.size = d.bodies.size :=
        congrArg Skeleton.bodyCount (skeleton_turned hd.seated c separation)
      rw [hcount]
      exact lt_size_of_ring? (congrArg Role.ring? (role_hub hd hc))
    intro u
    rw [Box.IsFitted, size_placeMembers]
    by_cases hu : u = (d.ring c).hub
    · rw [← hring] at hsize
      rw [hu]
      refine Or.inr ⟨mem_hubs hc, ?_⟩
      rw [← hring]
      exact isFitted_fitHub _ hsize
    · rw [fitHub, hring, body_modifyBody_of_ne _ hu]
      exact Or.inl (congrArg Box.size (hturned u))

theorem size_arranged (d : Drawing K) (c u : Nat) :
    ((d.arranged c).body u).box.size = (d.body u).box.size := by
  have hseats : ∀ (l : List (Nat × Nat)) (e : Drawing K), ((l.foldl (fun e p =>
      e.modifySeat p.1 fun s => { s with index := p.2, angle := 0.0 }) e).body u).box =
        (e.body u).box :=
    foldl_eq_of_step_eq (fun e : Drawing K => (e.body u).box) fun e p => e.box_modifySeat p.1 u _
  have hring : ∀ (e : Drawing K) f, (e.modifyRing c f).body u = e.body u := fun _ _ => rfl
  rw [arranged, hring, hseats]

theorem RingMotion.resizes (h : RingMotion S c d d') (hd : d.skeleton.Sound members) :
    Resizes d d' := by
  cases h with
  | translate delta => exact .of_eq (d.size_translateRing c delta)
  | rotate angle => exact .of_eq (d.size_rotateRing c angle)
  | swap i => exact .of_eq (d.size_swapWithNext c i)
  | reverse => exact .of_eq (d.size_reverseRing c)
  | withdraw v => exact .of_eq (d.size_moveInside c v)
  | spread separation => exact resizes_spread hd c separation
  | arrange separation =>
      have harranged := sound_arranged hd c
      have hplan : (d.arranged c).skeleton.plan = d.skeleton.plan := by
        rw [skeleton_arranged]
        exact hd.plan_reorder (d.arrangedOrder_perm c)
      rw [arrangeRing_eq]
      exact (Resizes.of_eq (d.size_arranged c)).trans hplan (resizes_spread harranged c separation)

theorem Motion.resizes (h : Motion S d d') (hd : d.skeleton.Sound members) : Resizes d d' := by
  cases h with
  | drift h =>
      cases h with
      | stir h => exact .of_eq fun v => congrArg (fun f => (f.box v).size) h
      | place v f _ hsize =>
          exact .of_eq fun u => view_modifyBody (fun b => b.box.size) d v u fun b => hsize b.box
      | ring c h => exact h.resizes hd
  | tile v left top =>
      exact .of_eq fun u => view_modifyBody (fun b => b.box.size) d v u fun _ => rfl
  | shift delta => exact .of_eq fun u => view_mapBodies (fun b => b.box.size) d u fun _ => rfl

/-! ## Bodies that are set aside -/

/-- While a drawing drifts, what is set aside stays where it is. -/
theorem Drift.tile_eq (h : Drift S d d') (hd : d.skeleton.Sound members) {v : Nat}
    (hv : v ∈ d.tiled) : (d'.body v).box = (d.body v).box := by
  cases h with
  | stir h => exact congrArg (fun f => f.box v) h
  | place u f hu =>
      rw [body_modifyBody_of_ne]
      rintro rfl
      exact hu.2 hv
  | ring c h =>
      refine congrArg Body.box ((h.isLocal hd).body_eq v ?_)
      have hfree : (d.body v).role.place = .free := hd.hubbed.tile v hv
      cases hrole : (d.body v).role <;> rw [hrole] at hfree <;> cases hfree
      exact nofun

end Drawing

end RingLayout
