import RingLayout.Proofs.Locality
import RingLayout.Proofs.Untangling.Run

/-! # Views of bodies that operations keep

A view of bodies may hide boxes, forces and places on rings, and the rules and pulls of the
exchanges besides. Whatever operations do to what it hides, it shows the same of every body
afterwards. With the view operations keep the links and their ideal lengths, and who is inside
which ring; only members that go inside, and lengths assigned anew, are another matter.
-/

namespace RingLayout

namespace Drawing

variable {K : Type} [Scalar K] {τ : Type} {view : Body K → τ} {d d' d'' : Drawing K}

/-! ## Views -/

/-- A view that hides boxes and forces, and where on a ring a body sits. -/
structure Steady (view : Body K → τ) : Prop where
  box_eq : ∀ (b : Body K) box, view { b with box := box } = view b
  forces_eq : ∀ b : Body K, view b.clearForces = view b
  seat_eq : ∀ (b : Body K) angle index, view { b with role := b.role.mapSeat fun s =>
    { s with angle := angle, index := index } } = view b

/-- A view that hides which exchanges are allowed. -/
structure HidesRules (view : Body K → τ) : Prop where
  next_eq : ∀ (b : Body K) allowed, view { b with role := b.role.mapSeat fun s =>
    { s with swapsNext := allowed } } = view b
  previous_eq : ∀ (b : Body K) allowed, view { b with role := b.role.mapSeat fun s =>
    { s with swapsPrevious := allowed } } = view b

/-- A view that hides the pulls gathered for exchanges. -/
def HidesPulls (view : Body K → τ) : Prop :=
  ∀ (b : Body K) pull, view { b with role := b.role.mapSeat fun s => { s with pull := pull } } =
    view b

omit [Scalar K] in
/-- A change of a seat that a view hides for every value, it hides for a value that depends on the
seat. -/
theorem view_mapSeat {α : Type} (change : α → Seat K → Seat K)
    (hchange : ∀ (b : Body K) a, view { b with role := b.role.mapSeat (change a) } = view b)
    {f : Seat K → Seat K} (hf : ∀ s, ∃ a, f s = change a s) (b : Body K) :
    view { b with role := b.role.mapSeat f } = view b := by
  obtain ⟨id, group, box, spring, repulsion, gravitation, role⟩ := b
  cases role with
  | seated s =>
      obtain ⟨a, heq⟩ := hf s
      rw [Role.mapSeat, heq]
      exact hchange ⟨id, group, box, spring, repulsion, gravitation, .seated s⟩ a
  | _ => rfl

theorem Steady.mapSeat (h : Steady view) {f : Seat K → Seat K}
    (hf : ∀ s, ∃ angle index, f s = { s with angle := angle, index := index }) (b : Body K) :
    view { b with role := b.role.mapSeat f } = view b := by
  refine view_mapSeat (fun (p : K × Nat) s => { s with angle := p.1, index := p.2 })
    (fun b p => h.seat_eq b p.1 p.2) (fun s => ?_) b
  obtain ⟨angle, index, heq⟩ := hf s
  exact ⟨(angle, index), heq⟩

/-! ## Keeping a view -/

/-- Two drawings that look alike in a view, with the same members inside rings. -/
structure Alike (view : Body K → τ) (d d' : Drawing K) : Prop where
  inside_eq : ∀ c, (d'.ring c).inside = (d.ring c).inside
  view_eq : ∀ v, view (d'.body v) = view (d.body v)

/-- The second drawing looks like the first and has its links, with their ideal lengths. -/
structure Keeps (view : Body K → τ) (d d' : Drawing K) : Prop extends Alike view d d' where
  links_eq : d'.links = d.links

theorem Alike.trans (h : Alike view d d') (h' : Alike view d' d'') : Alike view d d'' where
  inside_eq c := (h'.inside_eq c).trans (h.inside_eq c)
  view_eq v := (h'.view_eq v).trans (h.view_eq v)

namespace Keeps

theorem refl (view : Body K → τ) (d : Drawing K) : Keeps view d d :=
  ⟨⟨fun _ => rfl, fun _ => rfl⟩, rfl⟩

theorem trans (h : Keeps view d d') (h' : Keeps view d' d'') : Keeps view d d'' where
  toAlike := h.toAlike.trans h'.toAlike
  links_eq := h'.links_eq.trans h.links_eq

/-- What every step of a loop keeps, the loop keeps; `part` is the drawing among what the loop
carries along. -/
theorem foldl {σ α : Type} (part : σ → Drawing K) {step : σ → α → σ}
    (hstep : ∀ s a, Keeps view (part s) (part (step s a))) (l : List α) (s : σ) :
    Keeps view (part s) (part (l.foldl step s)) := by
  induction l generalizing s with
  | nil => exact refl view _
  | cons a l ih => exact (hstep s a).trans (ih (step s a))

theorem modifyBody (d : Drawing K) (v : Nat) {f : Body K → Body K}
    (hf : ∀ b, view (f b) = view b) : Keeps view d (d.modifyBody v f) :=
  ⟨⟨fun _ => rfl, fun u => view_modifyBody view d v u hf⟩, rfl⟩

theorem modifySeat (d : Drawing K) (v : Nat) {f : Seat K → Seat K}
    (hf : ∀ b : Body K, view { b with role := b.role.mapSeat f } = view b) :
    Keeps view d (d.modifySeat v f) :=
  modifyBody d v hf

theorem mapBodies (d : Drawing K) {f : Body K → Body K} (hf : ∀ b, view (f b) = view b) :
    Keeps view d { d with bodies := d.bodies.map f } :=
  ⟨⟨fun _ => rfl, fun v => view_mapBodies view d v hf⟩, rfl⟩

theorem modifyRing (view : Body K → τ) (d : Drawing K) (c : Nat) {f : Ring K → Ring K}
    (hf : ∀ r, (f r).inside = r.inside) : Keeps view d (d.modifyRing c f) := by
  refine ⟨⟨fun b => ?_, fun _ => rfl⟩, rfl⟩
  simp only [Drawing.modifyRing, ring, Array.getD_eq_getD_getElem?, Array.getElem?_modify]
  by_cases h : c = b
  · rw [if_pos h]
    cases d.rings[b]? with
    | none => rfl
    | some r => exact hf r
  · rw [if_neg h]

end Keeps

section Steady

variable (h : Steady view)
include h

/-! ## Rings as wholes -/

theorem keeps_setCenter (d : Drawing K) (v : Nat) (p : Point K) :
    Keeps view d (d.setCenter v p) :=
  .modifyBody d v fun b => h.box_eq b _

theorem keeps_translateBody (d : Drawing K) (v : Nat) (delta : Point K) :
    Keeps view d (d.translateBody v delta) :=
  .modifyBody d v fun b => h.box_eq b _

theorem keeps_placeMembers (d : Drawing K) (c : Nat) : Keeps view d (d.placeMembers c) :=
  .foldl id (fun d v => keeps_setCenter h d v _) _ d

theorem keeps_fitHub (d : Drawing K) (c : Nat) : Keeps view d (d.fitHub c) :=
  .modifyBody d _ fun b => h.box_eq b _

theorem keeps_assignAngles (radius first : K) (index : Nat) (angle : K) (seats : List (Nat × K))
    (d : Drawing K) : Keeps view d (assignAngles radius first index angle seats d) := by
  induction seats generalizing index angle d with
  | nil => exact .refl view d
  | cons seat rest ih =>
      rw [assignAngles.eq_def]
      exact (Keeps.modifySeat d seat.1 (h.mapSeat fun _ => ⟨_, _, rfl⟩)).trans (ih _ _ _)

theorem keeps_spread (d : Drawing K) (c : Nat) (separation : K) :
    Keeps view d (d.spread c separation) := by
  have hturned : Keeps view d (d.turned c separation) :=
    (Keeps.modifyRing view d c fun _ => by rfl).trans (keeps_assignAngles h _ _ _ _ _ _)
  rw [spread_eq]
  split
  · exact hturned
  · exact hturned.trans ((keeps_fitHub h _ c).trans (keeps_placeMembers h _ c))

theorem keeps_arrangeRing (d : Drawing K) (c : Nat) (separation : K) :
    Keeps view d (Run.arrangeRing d c separation) := by
  rw [arrangeRing_eq]
  refine Keeps.trans ?_ (keeps_spread h (d.arranged c) c separation)
  refine (Keeps.foldl id (fun d p => ?_) _ d).trans (.modifyRing view _ c fun _ => by rfl)
  exact .modifySeat d p.1 (h.mapSeat fun _ => ⟨_, _, rfl⟩)

theorem keeps_translateRing (d : Drawing K) (c : Nat) (delta : Point K) :
    Keeps view d (d.translateRing c delta) := by
  have hmove : ∀ (l : List Nat) (d : Drawing K),
      Keeps view d (l.foldl (fun d v => d.translateBody v delta) d) :=
    Keeps.foldl id fun d v => keeps_translateBody h d v delta
  exact ((keeps_translateBody h d _ delta).trans (hmove _ _)).trans (hmove _ _)

theorem keeps_rotateRing (d : Drawing K) (c : Nat) (angle : K) :
    Keeps view d (d.rotateRing c angle) := by
  rw [rotateRing_eq]
  split
  · exact .refl view d
  · refine Keeps.trans (Keeps.foldl id (fun d v => ?_) _ d) (keeps_placeMembers h _ c)
    exact .modifySeat d v (h.mapSeat fun s => ⟨_, s.index, rfl⟩)

theorem keeps_swapWithNext (d : Drawing K) (c i : Nat) :
    Keeps view d (d.swapWithNext c i) := by
  have hseat : ∀ (d : Drawing K) v (p : K × Nat),
      Keeps view d (d.modifySeat v fun s => { s with angle := p.1, index := p.2 }) :=
    fun d v p => .modifySeat d v (h.mapSeat fun _ => ⟨_, _, rfl⟩)
  rcases d.swapWithNext_cases c i with heq | ⟨j, u, v, -, -, -, -, heq⟩
  · rw [heq]
    exact .refl view d
  · rw [heq]
    have hseats := (hseat d u (d.seatOf v)).trans (hseat _ v (d.seatOf u))
    exact (hseats.trans (.modifyRing view _ c fun _ => by rfl)).trans (keeps_placeMembers h _ c)

theorem keeps_reverseRing (d : Drawing K) (c : Nat) : Keeps view d (d.reverseRing c) := by
  rw [reverseRing_eq]
  split
  · exact .refl view d
  · refine Keeps.trans (Keeps.trans ?_ (.modifyRing view _ c fun _ => by rfl))
      (keeps_placeMembers h _ c)
    refine (Keeps.foldl id (fun d v => ?_) _ d).trans (Keeps.foldl id (fun d p => ?_) _ _)
    · exact .modifySeat d v (h.mapSeat fun s => ⟨_, s.index, rfl⟩)
    · exact .modifySeat d p.1 (h.mapSeat fun s => ⟨s.angle, _, rfl⟩)

theorem keeps_tryReverse (d : Drawing K) (c : Nat) : Keeps view d (d.tryReverse c).2 := by
  unfold tryReverse
  split
  · split
    · split
      · exact (keeps_reverseRing h d c).trans (.modifyRing view _ c fun _ => by rfl)
      · exact .refl view d
    · exact .refl view d
  · exact .refl view d

/-! ## Exchanges -/

omit h in
theorem keeps_observeOrders (view : Body K → τ) (d : Drawing K) (rings : List Nat) :
    Keeps view d (rings.foldl observeOrder d) :=
  .foldl id (fun d c => .modifyRing view d c fun _ => by rfl) rings d

omit h in
theorem keeps_refreshExchanges (hrules : HidesRules view) (d : Drawing K) :
    Keeps view d d.refreshExchanges := by
  refine (keeps_observeOrders view d _).trans (Keeps.foldl id (fun d c => ?_) _ _)
  refine Keeps.foldl id (fun d i => ?_) _ d
  unfold refreshPair
  dsimp only
  split
  · exact (Keeps.modifySeat d _ fun b => hrules.next_eq b _).trans
      (.modifySeat _ _ fun b => hrules.previous_eq b _)
  · exact .refl view d

theorem Exchanges.keeps {held pairs : List (Nat × Nat)} (hexchanges : Exchanges held d pairs d') :
    Keeps view d d' := by
  induction hexchanges with
  | done d => exact .refl view d
  | exchange _ _ _ _ _ ih => exact (keeps_swapWithNext h _ _ _).trans ih
  | takeBack _ _ _ _ _ ih =>
      exact ((keeps_swapWithNext h _ _ _).trans (keeps_swapWithNext h _ _ _)).trans ih

theorem keeps_performExchanges (hpulls : HidesPulls view) (d : Drawing K) (m : ExchangeMemory) :
    Keeps view d (d.performExchanges m).2.1 := by
  obtain ⟨d', hexchanges, heq⟩ := d.exists_exchanges m
  rw [heq]
  refine (hexchanges.keeps h).trans (Keeps.foldl id (fun d v => ?_) _ d')
  exact .modifySeat d v fun b => hpulls b _

/-! ## Packing and tiling -/

theorem keeps_packComponents (d : Drawing K) (spacing : K) :
    Keeps view d (d.packComponents spacing).2 := by
  have hroot : ∀ (d : Drawing K) delta v, Keeps view d (translateRoot delta d v) := by
    intro d delta v
    unfold translateRoot
    split
    · exact keeps_translateRing h d _ delta
    · exact keeps_translateBody h d v delta
  have hline : ∀ items cursor (d : Drawing K), Keeps view d (lineUp spacing cursor items d) := by
    intro items
    induction items with
    | nil => exact fun _ d => .refl view d
    | cons item rest ih =>
        intro cursor d
        rw [lineUp]
        refine Keeps.trans ?_ (ih _ _)
        split
        · exact .foldl id (fun d v => hroot d _ v) _ d
        · exact .refl view d
  unfold packComponents
  dsimp only
  repeat' split
  · exact .refl view d
  · exact .refl view d
  · exact .refl view d
  · exact hline _ _ d

theorem keeps_tileIsolated (d : Drawing K) (paddingX paddingY : K) :
    Keeps view d (d.tileIsolated paddingX paddingY) := by
  have htiles : ∀ (startX rowWidth padX padY : K) (cursor : TileCursor K),
      Keeps view d (d.tiled.foldl (placeTile startX rowWidth padX padY) (cursor, d)).2 :=
    fun startX rowWidth padX padY cursor => Keeps.foldl Prod.snd
      (fun state v => .modifyBody state.2 v fun b => h.box_eq b _) d.tiled (cursor, d)
  unfold tileIsolated
  dsimp only
  split <;> exact htiles _ _ _ _ _

theorem keeps_centerOn (d : Drawing K) (target : Point K) : Keeps view d (d.centerOn target) := by
  unfold centerOn
  split
  · exact .mapBodies d fun b => h.box_eq b _
  · exact .refl view d

/-! ## Forces and motion -/

theorem keeps_unforced (d : Drawing K) : Keeps view d d.unforced := .mapBodies d h.forces_eq

/-- Where only forces differ, a view that hides them shows the same. -/
theorem keeps_of_unforced_eq (heq : d'.unforced = d.unforced) : Keeps view d d' where
  inside_eq c := by
    change (d'.unforced.ring c).inside = (d.unforced.ring c).inside
    rw [heq]
  view_eq v := by
    rw [← (keeps_unforced h d').view_eq, heq, (keeps_unforced h d).view_eq]
  links_eq := by
    change d'.unforced.links = d.unforced.links
    rw [heq]

theorem keeps_gatherForces (s : ForceSettings K) (connected : Bool) (d : Drawing K) :
    Keeps view d (gatherForces s connected d) :=
  keeps_of_unforced_eq h (unforced_gatherForces s connected d)

theorem keeps_keepInside (d : Drawing K) (v : Nat) (center : Point K) (radius : K) :
    Keeps view d (d.keepInside v center radius) := by
  unfold keepInside
  dsimp only
  split
  · exact keeps_setCenter h d v _
  · exact .refl view d

theorem keeps_moveRoot (cooling limit : K) (state : Drawing K × K) (v : Nat) :
    Keeps view state.1 (moveRoot cooling limit state v).1 := by
  unfold moveRoot
  dsimp only
  split
  · exact .refl view _
  · exact keeps_translateBody h _ v _

theorem keeps_moveInsideMembers (cooling limit : K) (center : Point K) (radius : K)
    (l : List Nat) (state : Drawing K × K) :
    Keeps view state.1 (l.foldl (moveInsideMember cooling limit center radius) state).1 :=
  Keeps.foldl Prod.fst (fun s v => (keeps_translateBody h s.1 v _).trans
    (keeps_keepInside h _ v center radius)) l state

theorem keeps_moveRing (cooling limit : K) {gather : Bool} (hpulls : gather → HidesPulls view)
    (state : Drawing K × K) (c : Nat) :
    Keeps view state.1 (moveRing cooling limit gather state c).1 := by
  unfold moveRing
  dsimp only
  refine Keeps.trans ?_ (keeps_moveInsideMembers h cooling limit _ _ _ _)
  refine Keeps.trans ?_ ((keeps_translateRing h _ c _).trans (keeps_rotateRing h _ c _))
  split
  next hgather =>
    refine Keeps.foldl id (fun d (p : Nat × K) => ?_) _ _
    refine .modifySeat d p.1 (view_mapSeat (fun pull s => { s with pull := pull })
      (hpulls hgather) fun s => ?_)
    exact ⟨s.pull + cooling * p.2, rfl⟩
  next => exact .refl view _

theorem keeps_move (cooling : K) {gather : Bool} (hpulls : gather → HidesPulls view)
    (d : Drawing K) : Keeps view d (d.move cooling gather).1 := by
  have hroots := Keeps.foldl Prod.fst
    (fun s v => keeps_moveRoot h cooling (cooling * maxDisplacement) s v) d.roots (d, 0.0)
  refine (hroots.trans ?_).trans (keeps_unforced h _)
  exact Keeps.foldl Prod.fst (fun s c => keeps_moveRing h cooling _ hpulls s c) _ _

end Steady

/-- Lengths assigned anew are not seen in views of bodies. -/
theorem alike_assignIdealLengths (view : Body K → τ) (d : Drawing K) (o : Options K) (factor : K) :
    Alike view d (d.assignIdealLengths o factor) :=
  ⟨fun _ => rfl, fun _ => rfl⟩

end Drawing

open Drawing (Steady HidesRules HidesPulls Alike Keeps)

variable {K : Type} [Scalar K] {τ : Type} {view : Body K → τ}

theorem Placement.keeps_apply (h : Steady view) (p : Placement K) (d : Drawing K) :
    Keeps view d (p.apply d) := by
  unfold Placement.apply
  rw [← Array.foldl_toList]
  refine Keeps.foldl id (fun d i => ?_) _ d
  unfold Placement.applyItem
  dsimp only [id]
  split
  · exact Drawing.keeps_translateRing h d _ _
  · exact Drawing.keeps_setCenter h d _ _

namespace Run

/-! ## Runs -/

section Preparation

variable (h : Steady view)
include h

theorem keeps_seedNodes (r : Run K) : Keeps view r.drawing r.seedNodes.drawing := by
  unfold seedNodes
  exact Keeps.foldl id (fun d (p : Nat × Point K) => Drawing.keeps_setCenter h d p.1 p.2) _ _

theorem keeps_seedHub (d : Drawing K) (c : Nat) : Keeps view d (seedHub d c) := by
  unfold seedHub
  dsimp only
  split
  · exact .refl view d
  · exact Drawing.keeps_setCenter h d _ _

/-- Before the links get their lengths, the preparation keeps them with the view. -/
theorem keeps_arrangeAll (d : Drawing K) (separation : K) :
    Keeps view d (arrangeAll (d.ringNumbers.foldl seedHub d) separation) := by
  have hhubs : Keeps view d (d.ringNumbers.foldl seedHub d) :=
    .foldl id (fun d c => keeps_seedHub h d c) _ d
  refine hhubs.trans ?_
  unfold arrangeAll Operation.run
  rw [List.foldl_map]
  refine Keeps.foldl id (fun d c => ?_) _ _
  dsimp only [id, Operation.apply]
  exact Drawing.keeps_arrangeRing h d c separation

theorem alike_placeRings (d : Drawing K) (o : Options K) : Alike view d (placeRings d o) := by
  have harranged := keeps_arrangeAll h d o.effectiveSeparation
  rw [placeRings_eq]
  exact (harranged.toAlike.trans (Drawing.alike_assignIdealLengths view _ o 1.0)).trans
    (Placement.keeps_apply h _ _).toAlike

theorem alike_placed (r : Run K) : Alike view r.drawing r.placed.drawing := by
  unfold placed
  dsimp only
  split
  · exact (keeps_seedNodes h r).toAlike.trans (alike_placeRings h _ _)
  · exact alike_placeRings h _ _

end Preparation

/-- Only the last step gives links other lengths when it is entered. -/
theorem keeps_prepareFor (hrules : HidesRules view) (o : Options K) {s : Step}
    (hs : s ≠ .polish) (d : Drawing K) : Keeps view d (prepareFor o s d) := by
  cases s with
  | reverse => exact Drawing.keeps_observeOrders view d _
  | exchange => exact Drawing.keeps_refreshExchanges hrules d
  | polish => exact absurd rfl hs
  | _ => exact .refl view d

section Iteration

variable (h : Steady view) (hrules : HidesRules view)

include h hrules in
theorem keeps_moveBodies (r : Run K) (hpulls : r.phase.gathers → HidesPulls view) :
    Keeps view r.drawing r.moveBodies.drawing := by
  have hmove := fun d => (Drawing.keeps_gatherForces h r.forces r.connected d).trans
    (Drawing.keeps_move h r.cooling.factor hpulls _)
  unfold moveBodies
  dsimp only
  split
  · exact (Drawing.keeps_refreshExchanges hrules _).trans (hmove _)
  · exact hmove _

include h

theorem keeps_reverseRings (r : Run K) : Keeps view r.drawing r.reverseRings.drawing := by
  unfold reverseRings
  split
  · exact Keeps.foldl id (fun d c => Drawing.keeps_tryReverse h d c) _ _
  · exact .refl view _

theorem keeps_exchangeNeighbors (r : Run K) (hpulls : r.phase = .carryOut → HidesPulls view) :
    Keeps view r.drawing r.exchangeNeighbors.drawing := by
  by_cases hphase : r.phase = .carryOut
  · rw [exchangeNeighbors_drawing hphase]
    exact Drawing.keeps_performExchanges h (hpulls hphase) _ _
  · rw [exchangeNeighbors, if_neg hphase]
    exact .refl view _

include hrules

theorem keeps_turned (r : Run K) (hpulls : r.countIteration.phase.gathers → HidesPulls view) :
    Keeps view r.drawing r.turned.drawing :=
  (keeps_moveBodies h hrules r.countIteration hpulls).trans (keeps_reverseRings h _)

/-- The work of an iteration keeps all that a view shows that hides what exchanges work with. -/
theorem keeps_worked (r : Run K) (hpulls : HidesPulls view) :
    Keeps view r.drawing r.worked.drawing :=
  (keeps_turned h hrules r fun _ => hpulls).trans (keeps_exchangeNeighbors h _ fun _ => hpulls)

omit hrules

theorem keeps_postrun (r : Run K) : Keeps view r.drawing r.postrun.drawing := by
  have hpacked : ∀ (o : Options K) center d, Keeps view d (packed o center d) := by
    intro o center d
    unfold packed
    dsimp only
    have hpack : Keeps view d (if o.packComponents then
        (d.packComponents o.effectiveEdgeLength).2 else d) := by
      split
      · exact Drawing.keeps_packComponents h d _
      · exact .refl view d
    have htile : ∀ d : Drawing K, Keeps view d (if o.tile then
        d.tileIsolated o.tilingPaddingHorizontal o.tilingPaddingVertical else d) := by
      intro d
      split
      · exact Drawing.keeps_tileIsolated h d _ _
      · exact .refl view d
    cases center with
    | some center => exact (hpack.trans (htile _)).trans (Drawing.keeps_centerOn h _ center)
    | none => exact hpack.trans (htile _)
  rw [postrun_eq]
  split
  · exact .refl view _
  · split
    · exact .refl view _
    · exact hpacked _ _ _

end Iteration

end Run

end RingLayout
