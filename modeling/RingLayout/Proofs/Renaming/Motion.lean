import RingLayout.Placement
import RingLayout.Proofs.Renaming
import RingLayout.Proofs.Skeleton.Motion

/-! # Renaming and motion

Forces, placement and packing go by the numbers of bodies, so that they are the same under other
names.
-/

namespace RingLayout

variable {K : Type} [Scalar K] (f : String → String)

namespace Drawing

variable (d : Drawing K)

/-! ## Forces -/

theorem assignIdealLengths_rename (o : Options K) (factor : K) :
    (d.rename f).assignIdealLengths o factor = (d.assignIdealLengths o factor).rename f := by
  have hlength : (d.rename f).idealLengthOf o factor = d.idealLengthOf o factor := by
    funext l
    simp [idealLengthOf]
  simp only [assignIdealLengths, hlength]
  rfl

theorem addSpring_rename (s : ForceSettings K) (bodies : Array (Body K)) (l : Link K) :
    addSpring s (bodies.map (·.rename f)) l = (addSpring s bodies l).map (·.rename f) := by
  simp only [addSpring, getD_map_rename, Body.isSeated_rename, Body.box_rename]
  split
  · rfl
  · rw [modify_map_rename f (fun _ => by rfl), modify_map_rename f (fun _ => by rfl)]

theorem addRepulsion_rename (s : ForceSettings K) (a : Nat) (bodies : Array (Body K)) (b : Nat) :
    addRepulsion s a (bodies.map (·.rename f)) b =
      (addRepulsion s a bodies b).map (·.rename f) := by
  simp only [addRepulsion, getD_map_rename, Body.box_rename]
  rw [modify_map_rename f (fun _ => by rfl), modify_map_rename f (fun _ => by rfl)]

theorem addRepulsions_rename (s : ForceSettings K) (others members : List Nat)
    (bodies : Array (Body K)) :
    addRepulsions s others members (bodies.map (·.rename f)) =
      (addRepulsions s others members bodies).map (·.rename f) := by
  induction members generalizing bodies with
  | nil => rfl
  | cons a rest ih =>
      have hpush : ∀ (l : List Nat) (bodies : Array (Body K)),
          l.foldl (addRepulsion s a) (bodies.map (·.rename f)) =
            (l.foldl (addRepulsion s a) bodies).map (·.rename f) := fun l bodies =>
        List.foldl_hom _ (addRepulsion_rename f s a)
      rw [addRepulsions, addRepulsions, hpush, hpush, ih]

theorem sprung_rename (s : ForceSettings K) :
    sprung s (d.rename f) = (sprung s d).rename f :=
  congrArg (fun bodies => { d.rename f with bodies := bodies })
    (Array.foldl_hom _ (addSpring_rename f s))

theorem repelled_rename (s : ForceSettings K) :
    repelled s (d.rename f) = (repelled s d).rename f := by
  refine congrArg (fun bodies => { d.rename f with bodies := bodies }) ?_
  change repel s (d.rename f) = (repel s d).map (·.rename f)
  have hroots : addRepulsions s [] (d.rename f).roots (d.rename f).bodies =
      (addRepulsions s [] d.roots d.bodies).map (·.rename f) := addRepulsions_rename ..
  rw [repel, repel, hroots]
  exact Array.foldl_hom _ fun bodies r => addRepulsions_rename f s r.order r.inside bodies

@[simp] theorem boundsCenter?_rename (members : List Nat) :
    (d.rename f).boundsCenter? members = d.boundsCenter? members := by
  simp [boundsCenter?]

theorem gravitateRoots_rename (s : ForceSettings K) :
    gravitateRoots s (d.rename f) = (gravitateRoots s d).rename f := by
  simp only [gravitateRoots, boundsCenter?_rename, roots_rename, body_rename, Body.box_rename]
  cases d.boundsCenter? d.roots with
  | none => rfl
  | some center =>
      refine foldl_rename f d (fun d v => modifyBody_rename f d (fun b => ?_) v) _
      exact (apply_ite (Body.rename f) _ (gravitate s center b) b).symm

theorem gravitateInside_rename (s : ForceSettings K) (c : Nat) :
    gravitateInside s (d.rename f) c = (gravitateInside s d c).rename f := by
  simp only [gravitateInside, ringCenter_rename, ring_rename]
  exact foldl_rename f d (fun d v => modifyBody_rename f d (fun _ => by rfl) v) _

theorem gatherForces_rename (s : ForceSettings K) (connected : Bool) :
    gatherForces s connected (d.rename f) = (gatherForces s connected d).rename f := by
  simp only [gatherForces_eq, sprung_rename, repelled_rename, gravitateRoots_rename, ite_rename,
    ringNumbers_rename]
  exact foldl_rename f _ (gravitateInside_rename f · s) _

/-! ## Motion -/

theorem keepInside_rename (v : Nat) (center : Point K) (radius : K) :
    (d.rename f).keepInside v center radius = (d.keepInside v center radius).rename f := by
  simp [keepInside]

theorem moveRoot_rename (cooling limit : K) (state : Drawing K × K) (v : Nat) :
    moveRoot cooling limit (state.map (rename f) id) v =
      (moveRoot cooling limit state v).map (rename f) id := by
  obtain ⟨d, total⟩ := state
  simp only [moveRoot, Prod.map_apply, body_rename, Body.isHub_rename, Body.totalForce_rename,
    translateBody_rename, id]
  split <;> rfl

theorem moveInsideMember_rename (cooling limit : K) (center : Point K) (radius : K)
    (state : Drawing K × K) (v : Nat) :
    moveInsideMember cooling limit center radius (state.map (rename f) id) v =
      (moveInsideMember cooling limit center radius state v).map (rename f) id := by
  obtain ⟨d, total⟩ := state
  simp only [moveInsideMember, Prod.map_apply, body_rename, Body.totalForce_rename,
    translateBody_rename, keepInside_rename, id]

@[simp] theorem splitForces_rename (c : Nat) : (d.rename f).splitForces c = d.splitForces c := by
  simp [splitForces]

theorem moveRing_rename (cooling limit : K) (gather : Bool) (state : Drawing K × K) (c : Nat) :
    moveRing cooling limit gather (state.map (rename f) id) c =
      (moveRing cooling limit gather state c).map (rename f) id := by
  obtain ⟨d, total⟩ := state
  simp only [moveRing, Prod.map_apply, ring_rename, splitForces_rename, foldl_rename,
    modifySeat_rename, implies_true, ite_rename, translateRing_rename, rotateRing_rename,
    ringCenter_rename, id]
  rw [foldl_map_rename' f _ (moveInsideMember_rename f cooling limit _ _)]
  rfl

theorem move_rename (cooling : K) (gather : Bool) :
    (d.rename f).move cooling gather = (d.move cooling gather).map (rename f) id := by
  have hclear : ∀ d : Drawing K,
      ({ d.rename f with bodies := (d.rename f).bodies.map (·.clearForces) } : Drawing K) =
        rename f { d with bodies := d.bodies.map (·.clearForces) } := fun d => by
    simp only [rename, Array.map_map]
    rfl
  simp only [move, roots_rename, foldl_map_rename' f d (moveRoot_rename f cooling _)]
  generalize d.roots.foldl (moveRoot cooling (cooling * maxDisplacement)) (d, 0.0) = state
  obtain ⟨d, total⟩ := state
  simp only [Prod.map_apply, ringNumbers_rename, id]
  rw [foldl_map_rename' f d (moveRing_rename f cooling _ gather)]
  exact Prod.ext (hclear _) rfl

/-! ## Members inside -/

@[simp] theorem seatedNeighbors_rename (v : Nat) :
    (d.rename f).seatedNeighbors v = d.seatedNeighbors v := by
  simp [seatedNeighbors]

@[simp] theorem firstToMoveInside?_rename (c : Nat) :
    (d.rename f).firstToMoveInside? c = d.firstToMoveInside? c := by
  have hmove : (d.rename f).canMoveInside c = d.canMoveInside c := by
    funext chords v
    simp [canMoveInside]
  simp [firstToMoveInside?, hmove]

@[simp] theorem centroid_rename (members : List Nat) :
    (d.rename f).centroid members = d.centroid members := by
  simp [centroid]

@[simp] theorem insideTarget_rename (c v : Nat) :
    (d.rename f).insideTarget c v = d.insideTarget c v := by
  simp [insideTarget]

theorem moveMembersInside_rename (c budget : Nat) :
    moveMembersInside c budget (d.rename f) = (moveMembersInside c budget d).map id (rename f) := by
  induction budget generalizing d with
  | zero => rfl
  | succ budget ih =>
      simp only [moveMembersInside, ring_rename, firstToMoveInside?_rename, insideTarget_rename,
        moveInside_rename, setCenter_rename, ih]
      split
      · cases d.firstToMoveInside? c <;> rfl
      · rfl

theorem relocateOnRing_rename (share separation : K) (state : Nat × Drawing K) (c : Nat) :
    relocateOnRing share separation (state.map id (rename f)) c =
      (relocateOnRing share separation state c).map id (rename f) := by
  obtain ⟨total, d⟩ := state
  simp only [relocateOnRing, Prod.map_apply, ring_rename, moveMembersInside_rename, Prod.map_fst,
    Prod.map_snd, spread_rename, ringCenter_rename, id]
  rw [foldl_rename f _ fun d v => keepInside_rename f d v _ _]
  split <;> rfl

theorem relocateInside_rename (share separation : K) :
    (d.rename f).relocateInside share separation =
      (d.relocateInside share separation).map id (rename f) :=
  foldl_map_rename f d (relocateOnRing_rename f share separation) _ _

/-! ## Roots -/

@[simp] theorem rootPairs_rename : (d.rename f).rootPairs = d.rootPairs := by
  have hrep : (d.rename f).representative = d.representative := by
    funext v
    simp [representative]
  simp [rootPairs, hrep]

@[simp] theorem rootComponents_rename : (d.rename f).rootComponents = d.rootComponents := by
  simp [rootComponents]

@[simp] theorem rootIsConnected_rename : (d.rename f).rootIsConnected = d.rootIsConnected := by
  simp [rootIsConnected]

@[simp] theorem rootsExtent?_rename (roots : List Nat) :
    (d.rename f).rootsExtent? roots = d.rootsExtent? roots := by
  have hboxes : (d.rename f).boxesAt = d.boxesAt := by
    funext v
    simp [boxesAt]
  simp [rootsExtent?, hboxes]

theorem translateRoot_rename (delta : Point K) (v : Nat) :
    translateRoot delta (d.rename f) v = (translateRoot delta d v).rename f := by
  simp only [translateRoot, body_rename, Body.role_rename, translateRing_rename,
    translateBody_rename]
  cases (d.body v).role.hub? <;> rfl

theorem lineUp_rename (spacing cursor : K) (items : List (Extent K × List Nat)) :
    lineUp spacing cursor items (d.rename f) = (lineUp spacing cursor items d).rename f := by
  induction items generalizing d cursor with
  | nil => rfl
  | cons item items ih =>
      obtain ⟨e, roots⟩ := item
      simp only [lineUp, foldl_rename f d fun d v => translateRoot_rename f d _ v, ite_rename, ih]

theorem packComponents_rename (spacing : K) :
    (d.rename f).packComponents spacing = (d.packComponents spacing).map id (rename f) := by
  have hextents : (d.rename f).componentExtents = d.componentExtents := by
    simp [componentExtents]
  simp only [packComponents, roots_rename, rootComponents_rename, hextents, lineUp_rename]
  split
  · rfl
  · split
    · rfl
    · split <;> rfl

theorem placeTile_rename (startX rowWidth padX padY : K) (state : TileCursor K × Drawing K)
    (v : Nat) :
    placeTile startX rowWidth padX padY (state.map id (rename f)) v =
      (placeTile startX rowWidth padX padY state v).map id (rename f) := by
  obtain ⟨cursor, d⟩ := state
  simp only [placeTile, Prod.map_apply, body_rename, Body.box_rename, id]
  rw [modifyBody_rename f d (fun _ => by rfl)]

theorem tileIsolated_rename (paddingX paddingY : K) :
    (d.rename f).tileIsolated paddingX paddingY =
      (d.tileIsolated paddingX paddingY).rename f := by
  simp only [tileIsolated, tiled_rename, roots_rename, body_rename, Body.box_rename,
    rootsExtent?_rename, foldl_map_rename f d (placeTile_rename f _ _ _ _)]
  cases d.rootsExtent? d.roots <;> rfl

theorem centerOn_rename (target : Point K) :
    (d.rename f).centerOn target = (d.centerOn target).rename f := by
  simp only [centerOn, nodeBoxes_rename]
  cases Extent.cover? d.nodeBoxes with
  | none => rfl
  | some e =>
      simp only [rename, Array.map_map]
      rfl

end Drawing

/-! ## Placement -/

namespace Placement

variable (d : Drawing K)

@[simp] theorem ofDrawing_rename (o : Options K) : ofDrawing (d.rename f) o = ofDrawing d o := by
  have hbox : ∀ ideal v, rootBox (d.rename f) ideal v = rootBox d ideal v := fun ideal v => by
    simp [rootBox]
  simp only [ofDrawing, Drawing.roots_rename, Drawing.rootPairs_rename, Drawing.body_rename,
    Body.isHub_rename, hbox]

theorem apply_rename (p : Placement K) : p.apply (d.rename f) = (p.apply d).rename f := by
  refine Array.foldl_hom _ fun d i => ?_
  simp only [applyItem, Drawing.body_rename, Body.role_rename, Body.center_rename,
    Drawing.translateRing_rename, Drawing.setCenter_rename]
  cases (d.body i.root).role.hub? <;> rfl

end Placement

end RingLayout
