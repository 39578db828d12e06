import RingLayout.Drawing.Exchange
import RingLayout.Drawing.Packing
import RingLayout.Proofs.Skeleton
import RingLayout.Run.Seeding

/-! # What leaves the skeleton alone

Forces, motion, placement, packing and tiling move bodies; the rules of exchange set flags. None
of them changes the skeleton of a drawing, whatever the numbers are.
-/

namespace RingLayout

namespace Drawing

variable {K : Type} [Scalar K]

/-! ## Rings as wholes -/

@[simp] theorem skeleton_setCenter (d : Drawing K) (v : Nat) (p : Point K) :
    (d.setCenter v p).skeleton = d.skeleton :=
  d.skeleton_modifyBody v fun _ => rfl

@[simp] theorem skeleton_translateBody (d : Drawing K) (v : Nat) (delta : Point K) :
    (d.translateBody v delta).skeleton = d.skeleton :=
  d.skeleton_modifyBody v fun _ => rfl

@[simp] theorem skeleton_placeMembers (d : Drawing K) (c : Nat) :
    (d.placeMembers c).skeleton = d.skeleton :=
  foldl_eq_of_step_eq skeleton (fun d v => d.skeleton_setCenter v _) _ d

@[simp] theorem skeleton_fitHub (d : Drawing K) (c : Nat) : (d.fitHub c).skeleton = d.skeleton :=
  d.skeleton_modifyBody _ fun _ => rfl

@[simp] theorem skeleton_translateRing (d : Drawing K) (c : Nat) (delta : Point K) :
    (d.translateRing c delta).skeleton = d.skeleton := by
  have hmove : ∀ (l : List Nat) (d : Drawing K),
      (l.foldl (fun d v => d.translateBody v delta) d).skeleton = d.skeleton :=
    foldl_eq_of_step_eq skeleton fun d v => d.skeleton_translateBody v delta
  simp only [translateRing, hmove, skeleton_translateBody]

@[simp] theorem skeleton_rotateRing (d : Drawing K) (c : Nat) (angle : K) :
    (d.rotateRing c angle).skeleton = d.skeleton := by
  unfold rotateRing
  split
  · rfl
  · rw [skeleton_placeMembers]
    refine foldl_eq_of_step_eq skeleton (fun d v => d.skeleton_modifySeat v ?_) _ d
    exact fun _ => rfl

/-! ## Exchange rules -/

@[simp] theorem skeleton_observeOrder (d : Drawing K) (c : Nat) :
    (d.observeOrder c).skeleton = d.skeleton :=
  d.skeleton_modifyRing_eq c fun _ => rfl

@[simp] theorem skeleton_observeOrders (d : Drawing K) (rings : List Nat) :
    (rings.foldl observeOrder d).skeleton = d.skeleton :=
  foldl_eq_of_step_eq skeleton skeleton_observeOrder rings d

@[simp] theorem skeleton_refreshPair (d : Drawing K) (c i : Nat) :
    (refreshPair c d i).skeleton = d.skeleton := by
  unfold refreshPair
  dsimp only
  split
  · refine (skeleton_modifySeat _ _ ?_).trans (skeleton_modifySeat d _ ?_) <;> exact fun _ => rfl
  · rfl

@[simp] theorem skeleton_refreshExchanges (d : Drawing K) :
    d.refreshExchanges.skeleton = d.skeleton := by
  unfold refreshExchanges
  rw [foldl_eq_of_step_eq skeleton fun d c =>
      foldl_eq_of_step_eq skeleton (fun d i => d.skeleton_refreshPair c i) _ d,
    skeleton_observeOrders]

/-- Clearing the pulls after a round of exchanges. -/
theorem skeleton_clearPulls (d : Drawing K) (members : List Nat) :
    (members.foldl (fun d v => d.modifySeat v fun s => { s with pull := 0.0 }) d).skeleton =
      d.skeleton := by
  refine foldl_eq_of_step_eq skeleton (fun d v => d.skeleton_modifySeat v ?_) members d
  exact fun _ => rfl

/-! ## Forces -/

/-- A drawing without its forces. -/
def unforced (d : Drawing K) : Drawing K := { d with bodies := d.bodies.map (·.clearForces) }

/-- What a change of all bodies keeps of each, is kept. -/
theorem view_mapBodies {τ : Type} (view : Body K → τ) (d : Drawing K) (v : Nat)
    {f : Body K → Body K} (hf : ∀ b, view (f b) = view b) :
    view (({ d with bodies := d.bodies.map f } : Drawing K).body v) = view (d.body v) := by
  simp only [body, Array.getD_eq_getD_getElem?, Array.getElem?_map]
  cases d.bodies[v]? with
  | none => rfl
  | some b => exact hf b

theorem skeleton_mapBodies (d : Drawing K) {f : Body K → Body K}
    (hf : ∀ b, (f b).shape = b.shape) :
    ({ d with bodies := d.bodies.map f } : Drawing K).skeleton = d.skeleton :=
  d.skeleton_withBodies _ Array.size_map fun v => view_mapBodies Body.shape d v hf

@[simp] theorem skeleton_unforced (d : Drawing K) : d.unforced.skeleton = d.skeleton :=
  d.skeleton_mapBodies fun _ => rfl

theorem unforced_modifyBody (d : Drawing K) (v : Nat) {f : Body K → Body K}
    (hf : ∀ b, (f b).clearForces = b.clearForces) : (d.modifyBody v f).unforced = d.unforced :=
  congrArg (fun bodies => { d with bodies := bodies }) (map_modify_eq d.bodies v hf)

theorem map_clearForces_addSpring (s : ForceSettings K) (bodies : Array (Body K)) (l : Link K) :
    (addSpring s bodies l).map (·.clearForces) = bodies.map (·.clearForces) := by
  unfold addSpring
  dsimp only
  split
  · rfl
  · exact (map_modify_eq _ _ fun _ => by rfl).trans
      (map_modify_eq bodies _ fun _ => by rfl)

theorem map_clearForces_addRepulsion (s : ForceSettings K) (a : Nat) (bodies : Array (Body K))
    (b : Nat) : (addRepulsion s a bodies b).map (·.clearForces) = bodies.map (·.clearForces) := by
  unfold addRepulsion
  exact (map_modify_eq _ _ fun _ => by rfl).trans
    (map_modify_eq bodies _ fun _ => by rfl)

theorem map_clearForces_addRepulsions (s : ForceSettings K) (others l : List Nat)
    (bodies : Array (Body K)) :
    (addRepulsions s others l bodies).map (·.clearForces) = bodies.map (·.clearForces) := by
  have hstep := fun (a : Nat) => foldl_eq_of_step_eq (Array.map Body.clearForces)
    (map_clearForces_addRepulsion s a)
  induction l generalizing bodies with
  | nil => rfl
  | cons a rest ih => rw [addRepulsions, ih, hstep a, hstep a]

/-- A drawing with the pulls of its links added. -/
def sprung (s : ForceSettings K) (d : Drawing K) : Drawing K :=
  { d with bodies := d.links.foldl (addSpring s) d.bodies }

/-- A drawing with the pushes of its bodies added. -/
def repelled (s : ForceSettings K) (d : Drawing K) : Drawing K := { d with bodies := repel s d }

/-- Forces are gathered one kind after the other. -/
theorem gatherForces_eq (s : ForceSettings K) (connected : Bool) (d : Drawing K) :
    gatherForces s connected d =
      let d := repelled s (sprung s d)
      let d := if connected then d else gravitateRoots s d
      d.ringNumbers.foldl (gravitateInside s) d := rfl

theorem unforced_sprung (s : ForceSettings K) (d : Drawing K) :
    (sprung s d).unforced = d.unforced := by
  refine congrArg (fun bodies => { d with bodies := bodies }) ?_
  rw [sprung, ← Array.foldl_toList]
  exact foldl_eq_of_step_eq (Array.map Body.clearForces) (map_clearForces_addSpring s) _ _

theorem unforced_repelled (s : ForceSettings K) (d : Drawing K) :
    (repelled s d).unforced = d.unforced := by
  refine congrArg (fun bodies => { d with bodies := bodies }) ?_
  rw [repelled, repel, ← Array.foldl_toList]
  refine (foldl_eq_of_step_eq (Array.map Body.clearForces)
    (fun bodies (r : Ring K) => ?_) _ _).trans (map_clearForces_addRepulsions s _ _ _)
  exact map_clearForces_addRepulsions s r.order r.inside bodies

theorem unforced_gravitateRoots (s : ForceSettings K) (d : Drawing K) :
    (gravitateRoots s d).unforced = d.unforced := by
  unfold gravitateRoots
  dsimp only
  split
  · rfl
  · refine foldl_eq_of_step_eq unforced (fun d v => d.unforced_modifyBody v fun b => ?_) _ d
    split <;> rfl

theorem unforced_gravitateInside (s : ForceSettings K) (d : Drawing K) (c : Nat) :
    (gravitateInside s d c).unforced = d.unforced :=
  foldl_eq_of_step_eq unforced (fun d v => d.unforced_modifyBody v fun _ => by rfl) _ d

/-- Where forces are gathered nothing else changes. -/
theorem unforced_gatherForces (s : ForceSettings K) (connected : Bool) (d : Drawing K) :
    (gatherForces s connected d).unforced = d.unforced := by
  rw [gatherForces_eq, foldl_eq_of_step_eq unforced (unforced_gravitateInside s)]
  split
  · rw [unforced_repelled, unforced_sprung]
  · rw [unforced_gravitateRoots, unforced_repelled, unforced_sprung]

@[simp] theorem skeleton_gatherForces (s : ForceSettings K) (connected : Bool) (d : Drawing K) :
    (gatherForces s connected d).skeleton = d.skeleton := by
  rw [← skeleton_unforced, unforced_gatherForces, skeleton_unforced]

/-! ## Motion -/

@[simp] theorem skeleton_keepInside (d : Drawing K) (v : Nat) (center : Point K) (radius : K) :
    (d.keepInside v center radius).skeleton = d.skeleton := by
  unfold keepInside
  dsimp only
  split
  · exact d.skeleton_setCenter v _
  · rfl

theorem skeleton_moveRoot (cooling limit : K) (state : Drawing K × K) (v : Nat) :
    (moveRoot cooling limit state v).1.skeleton = state.1.skeleton := by
  unfold moveRoot
  dsimp only
  split
  · rfl
  · exact state.1.skeleton_translateBody v _

theorem skeleton_moveInsideMember (cooling limit : K) (center : Point K) (radius : K)
    (state : Drawing K × K) (v : Nat) :
    (moveInsideMember cooling limit center radius state v).1.skeleton = state.1.skeleton := by
  simp only [moveInsideMember, skeleton_keepInside, skeleton_translateBody]

theorem skeleton_moveRing (cooling limit : K) (gather : Bool) (state : Drawing K × K) (c : Nat) :
    (moveRing cooling limit gather state c).1.skeleton = state.1.skeleton := by
  unfold moveRing
  dsimp only
  rw [foldl_eq_of_step_eq (fun p : Drawing K × K => p.1.skeleton)
    (skeleton_moveInsideMember _ _ _ _), skeleton_rotateRing, skeleton_translateRing]
  split
  · refine foldl_eq_of_step_eq skeleton
      (fun (d : Drawing K) (p : Nat × K) => d.skeleton_modifySeat p.1 ?_) _ _
    exact fun _ => rfl
  · rfl

@[simp] theorem skeleton_move (cooling : K) (gather : Bool) (d : Drawing K) :
    (move cooling gather d).1.skeleton = d.skeleton := by
  unfold move
  dsimp only
  rw [← unforced, skeleton_unforced, foldl_eq_of_step_eq (fun p : Drawing K × K => p.1.skeleton)
      (skeleton_moveRing _ _ gather),
    foldl_eq_of_step_eq (fun p : Drawing K × K => p.1.skeleton) (skeleton_moveRoot _ _)]

/-! ## Ideal lengths -/

@[simp] theorem skeleton_assignIdealLengths (d : Drawing K) (o : Options K) (factor : K) :
    (d.assignIdealLengths o factor).skeleton = d.skeleton := by
  ext1
  case linkCount => exact Array.size_map
  case link =>
    funext e
    simp only [skeleton, assignIdealLengths, link, Array.getD_eq_getD_getElem?, Array.getElem?_map]
    cases d.links[e]? <;> rfl
  all_goals rfl

/-! ## Packing and tiling -/

theorem skeleton_translateRoot (delta : Point K) (d : Drawing K) (v : Nat) :
    (translateRoot delta d v).skeleton = d.skeleton := by
  unfold translateRoot
  split
  · exact d.skeleton_translateRing _ delta
  · exact d.skeleton_translateBody v delta

theorem skeleton_lineUp (spacing cursor : K) (items : List (Extent K × List Nat))
    (d : Drawing K) : (lineUp spacing cursor items d).skeleton = d.skeleton := by
  induction items generalizing cursor d with
  | nil => rfl
  | cons item rest ih =>
      rw [lineUp, ih]
      split
      · exact foldl_eq_of_step_eq skeleton (skeleton_translateRoot _) _ d
      · rfl

@[simp] theorem skeleton_packComponents (d : Drawing K) (spacing : K) :
    (d.packComponents spacing).2.skeleton = d.skeleton := by
  unfold packComponents
  dsimp only
  repeat' split
  · rfl
  · rfl
  · rfl
  · exact skeleton_lineUp _ _ _ d

theorem skeleton_placeTile (startX rowWidth padX padY : K) (state : TileCursor K × Drawing K)
    (v : Nat) :
    (placeTile startX rowWidth padX padY state v).2.skeleton = state.2.skeleton :=
  state.2.skeleton_modifyBody v fun _ => rfl

@[simp] theorem skeleton_tileIsolated (d : Drawing K) (paddingX paddingY : K) :
    (d.tileIsolated paddingX paddingY).skeleton = d.skeleton := by
  have htiles : ∀ (startX rowWidth padX padY : K) (tiles : List Nat)
      (state : TileCursor K × Drawing K),
      (tiles.foldl (placeTile startX rowWidth padX padY) state).2.skeleton = state.2.skeleton :=
    fun startX rowWidth padX padY => foldl_eq_of_step_eq
      (fun p : TileCursor K × Drawing K => p.2.skeleton)
      (skeleton_placeTile startX rowWidth padX padY)
  unfold tileIsolated
  dsimp only
  split <;> rw [htiles]

@[simp] theorem skeleton_centerOn (d : Drawing K) (target : Point K) :
    (d.centerOn target).skeleton = d.skeleton := by
  unfold centerOn
  split
  · exact d.skeleton_mapBodies fun _ => rfl
  · rfl

end Drawing

/-! ## Placement and seeding -/

variable {K : Type} [Scalar K]

@[simp] theorem Placement.skeleton_apply (p : Placement K) (d : Drawing K) :
    (p.apply d).skeleton = d.skeleton := by
  unfold Placement.apply
  rw [← Array.foldl_toList]
  refine foldl_eq_of_step_eq Drawing.skeleton (fun d i => ?_) _ d
  unfold Placement.applyItem
  dsimp only
  split
  · exact d.skeleton_translateRing _ _
  · exact d.skeleton_setCenter _ _

@[simp] theorem Run.skeleton_seedNodes (r : Run K) :
    r.seedNodes.drawing.skeleton = r.drawing.skeleton := by
  unfold Run.seedNodes
  exact foldl_eq_of_step_eq Drawing.skeleton
    (fun d (p : Nat × Point K) => d.skeleton_setCenter p.1 p.2) _ _

@[simp] theorem Run.skeleton_seedHub (d : Drawing K) (c : Nat) :
    (Run.seedHub d c).skeleton = d.skeleton := by
  unfold Run.seedHub
  dsimp only
  split
  · rfl
  · exact d.skeleton_setCenter _ _

end RingLayout
