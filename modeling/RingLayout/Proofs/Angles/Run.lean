import RingLayout.Proofs.Angles.Spread
import RingLayout.Proofs.Motions.Run

/-! # Angles in runs

No motion takes the members of a ring out of turn: the ring turns as a whole, is mirrored together
with its order, loses members, or is laid out anew. So from the moment at which a ring is laid out
its angles grow with the order, once around.
-/

namespace RingLayout

namespace Drawing

/-! ## Motions -/

/-- What a motion does to the angles of a ring. -/
inductive Redeals (S : ℝ → Prop) (members : Nat → List Nat) (c : Nat) (d d' : Drawing ℝ) : Prop
  /-- Some members leave; the others keep their angles. -/
  | drop (h : (d'.angles c).Sublist (d.angles c))
  | rotate (angle : ℝ) (h : d'.angles c = (d.angles c).map fun a => normalizeAngle (a + angle))
  | mirror (a : ℝ) (rest : List ℝ) (h : d.angles c = a :: rest)
      (h' : d'.angles c = (a :: rest.reverse).map fun b => normalizeAngle (2.0 * a - b))
  | spread (e : Drawing ℝ) (separation : ℝ) (he : e.skeleton.Sound members) (hS : S separation)
      (h : d' = e.spread c separation)

variable {S : ℝ → Prop} {members : Nat → List Nat} {d d' : Drawing ℝ} {c : Nat}

namespace Redeals

theorem of_eq (h : d'.angles c = d.angles c) : Redeals S members c d d' :=
  .drop (h ▸ List.Sublist.refl _)

theorem mem_Ico (h : Redeals S members c d d')
    (hd : ∀ a ∈ d.angles c, a ∈ Set.Ico 0 fullTurn) :
    ∀ a ∈ d'.angles c, a ∈ Set.Ico 0 fullTurn := by
  have hnormal : ∀ (f : ℝ → ℝ) (l : List ℝ), ∀ a ∈ l.map fun b => normalizeAngle (f b),
      a ∈ Set.Ico 0 fullTurn := by
    intro f l a ha
    obtain ⟨b, -, rfl⟩ := List.mem_map.mp ha
    exact normalizeAngle_mem_Ico (f b)
  cases h with
  | drop h => exact fun a ha => hd a (h.subset ha)
  | rotate angle h => exact h ▸ hnormal (· + angle) _
  | mirror a rest h h' => exact h' ▸ hnormal (2.0 * a - ·) _
  | spread e separation he hS h =>
      subst h
      rw [angles_spread he]
      exact hnormal id _

theorem inTurn (h : Redeals (0 < ·) members c d d') (hd : InTurn (d.angles c)) :
    InTurn (d'.angles c) := by
  cases h with
  | drop h => exact hd.sublist h
  | rotate angle h => exact h ▸ hd.rotate angle
  | mirror a rest h h' =>
      have htwo : (2.0 : ℝ) = 2 := by norm_num
      rw [h] at hd
      rw [h', htwo]
      exact hd.mirror
  | spread e separation he hS h => exact h ▸ inTurn_spread he hS c

end Redeals

theorem RingMotion.redeals (h : RingMotion S c d d') (hd : d.skeleton.Sound members) :
    Redeals S members c d d' := by
  cases h with
  | translate delta hc => exact .of_eq (angles_translateRing hd hc delta)
  | rotate angle => exact (angles_rotateRing hd c angle).elim .of_eq (.rotate angle)
  | swap i => exact .of_eq (angles_swapWithNext hd c i)
  | reverse =>
      rcases angles_reverseRing hd c with h | ⟨a, rest, h, h'⟩
      · exact .of_eq h
      · exact .mirror a rest h h'
  | withdraw v => exact .drop (angles_moveInside hd c v)
  | spread separation hS => exact .spread d separation hd hS rfl
  | arrange separation hS => exact .spread _ separation (sound_arranged hd c) hS rfl

theorem Motion.redeals (h : Motion S d d') (hd : d.skeleton.Sound members) (c : Nat) :
    Redeals S members c d d' := by
  by_cases hc : c < d.rings.size
  · rcases h.ring_cases hd hc with hkeeps | ⟨delta, rfl⟩ | hring
    · exact .of_eq hkeeps.angles_eq
    · exact .of_eq (d.angles_shift c delta)
    · exact hring.redeals hd
  · have hsize : d'.rings.size = d.rings.size := (h.evolves hd).ringCount_eq
    apply Redeals.of_eq
    rw [angles, angles, ring_eq_blank (Nat.le_of_not_lt hc),
      ring_eq_blank (hsize ▸ Nat.le_of_not_lt hc)]
    rfl

/-! ## From the beginning -/

/-- A new drawing has its members at angle 0. -/
theorem angle_build {g : Graph ℝ} {o : Options ℝ} (h : build g o = .ok d) (v : Nat) :
    (d.body v).angle = 0.0 := by
  obtain ⟨⟨⟩, -, h⟩ := bind_eq_ok h
  obtain ⟨cs, -, h⟩ := bind_eq_ok h
  cases h
  have hall : ∀ b ∈ (ofClusters g o cs).bodies, b.angle = 0.0 := by
    intro b hb
    rcases Array.mem_append.mp hb with hb | hb
    · obtain ⟨p, -, rfl⟩ := List.mem_map.mp (List.mem_toArray.mp hb)
      change (Body.atRest _ _ _ (roleOf cs _ p.2)).angle = 0.0
      unfold roleOf
      cases clusterOf? cs p.2 <;> rfl
    · obtain ⟨p, -, rfl⟩ := List.mem_map.mp (List.mem_toArray.mp hb)
      rfl
  rw [body, Array.getD_eq_getD_getElem?]
  cases hb : (ofClusters g o cs).bodies[v]? with
  | none => rfl
  | some b => exact hall b (Array.mem_of_getElem? hb)

/-- Angles are normalized at all times. -/
theorem Motions.angle_mem_Ico {g : Graph ℝ} {o : Options ℝ} (h : build g o = .ok d)
    (hmotions : Motions S d d') (c : Nat) : ∀ a ∈ d'.angles c, a ∈ Set.Ico 0 fullTurn := by
  refine hmotions.induct (sound_build h)
    (P := fun e => ∀ a ∈ e.angles c, a ∈ Set.Ico 0 fullTurn) ?_
    fun e e' he hrange hmotion => (hmotion.redeals he c).mem_Ico hrange
  intro a ha
  obtain ⟨v, -, rfl⟩ := List.mem_map.mp ha
  rw [angleOf_eq, angle_build h]
  norm_num
  exact fullTurn_pos

theorem lasting_inTurn (members : Nat → List Nat) :
    Lasting (0 < ·) members fun c d => InTurn (d.angles c) where
  vacant d c hnil := by
    rw [angles, hnil]
    exact (InTurn.single 0).sublist (List.nil_sublist _)
  spread d c separation hd hseparation := inTurn_spread hd hseparation c
  kept d d' c hd hturn hmotion := (hmotion.redeals hd c).inTurn hturn

/-- The angles of a ring grow with the order of its members, once around at most. -/
structure Winds (d : Drawing ℝ) (c : Nat) : Prop where
  range : ∀ a ∈ d.angles c, 0 ≤ a ∧ a < 2 * Real.pi
  /-- The arcs from the first member grow. -/
  increasing : ((d.angles c).map (arc ((d.angles c).headD 0))).Pairwise (· < ·)
  distinct : (d.angles c).Nodup

theorem winds_of_inTurn (h : InTurn (d.angles c)) : Winds d c where
  range := h.mem_Ico
  increasing := by
    cases hangles : d.angles c with
    | nil => exact List.Pairwise.nil
    | cons a rest => exact (hangles ▸ h).pairwise_arc
  distinct := h.nodup

end Drawing

namespace Run

/-- Operations on a drawing that fit it and lay rings out for positive separations. -/
def Spacious (d : Drawing ℝ) (ops : List (Operation ℝ)) : Prop :=
  ∀ op ∈ ops, op.Fits d ∧ ∀ separation ∈ op.separation?, 0 < separation

/-- What keeps the members of a new drawing in turn. -/
structure KeepsTurn (o : Options ℝ) (d : Drawing ℝ) : Prop where
  /-- A ring that some operation lays out has its members in turn after all operations. -/
  run : ∀ ops, Spacious d ops → ∀ c, (∃ op ∈ ops, op.LaysOut c) →
    Drawing.Winds (Operation.run ops d) c
  /-- After any operations, laying out a ring of at least two members fills it, and its first
  member keeps its angle. -/
  spread : ∀ ops, Spacious d ops → ∀ c separation, 0 < separation →
    2 ≤ ((Operation.run ops d).ring c).order.length →
      Drawing.Filled ((Operation.run ops d).spread c separation) c separation ∧
        ∀ first, ((Operation.run ops d).ring c).order.head? = some first →
          ((Operation.run ops d).spread c separation).angleOf first =
            (Operation.run ops d).angleOf first
  /-- Arranging such a ring, which changes its order and then lays it out, fills it as well. -/
  arrange : ∀ ops, Spacious d ops → ∀ c separation, 0 < separation →
    2 ≤ ((Operation.run ops d).ring c).order.length →
      Drawing.Filled (arrangeRing (Operation.run ops d) c separation) c separation
  /-- All rings have their members in turn in every state that a caller sees after the
  preparation. -/
  afterAll : o.PlacesRings → ∀ calls, ((ofDrawing d o).afterAll calls).stage ≠ .created →
    ∀ c, Drawing.Winds ((ofDrawing d o).afterAll calls).drawing c

theorem effectiveSeparation_pos (o : Options ℝ) : 0 < o.effectiveSeparation := by
  unfold Options.effectiveSeparation Options.positiveOr
  split
  next hpos =>
    have hzero : (0.0 : ℝ) = 0 := by norm_num
    rw [Bool.and_eq_true, decide_eq_true_eq, hzero] at hpos
    exact hpos.2
  next => norm_num

theorem keepsTurn {g : Graph ℝ} {o : Options ℝ} {d : Drawing ℝ}
    (h : Drawing.build g o = .ok d) : KeepsTurn o d := by
  have hd := Drawing.sound_build h
  have hlasting := Drawing.lasting_inTurn fun c => (d.ring c).order
  have hmotions : ∀ ops, Spacious d ops → Drawing.Motions (0 < ·) d (Operation.run ops d) :=
    fun ops hops => Operation.motions_run hd (fun op hop => (hops op hop).1)
      fun op hop => (hops op hop).2
  constructor
  case run =>
    intro ops hops c hc
    exact Drawing.winds_of_inTurn
      (hlasting.run hd (fun op hop => (hops op hop).1) (fun op hop => (hops op hop).2) hc)
  case spread =>
    intro ops hops c separation hseparation htwo
    have hsound := (hmotions ops hops).sound hd
    refine ⟨Drawing.filled_spread hsound hseparation htwo, fun first hfirst => ?_⟩
    refine Drawing.angle_first_spread hsound hfirst ?_ separation
    apply (hmotions ops hops).angle_mem_Ico h c
    exact List.mem_map_of_mem (List.mem_of_mem_head? hfirst)
  case arrange =>
    intro ops hops c separation hseparation htwo
    exact Drawing.filled_arrangeRing ((hmotions ops hops).sound hd) hseparation htwo
  case afterAll =>
    intro hplaces calls hcreated c
    have hP := enduring_of_lasting (o := o) hlasting (effectiveSeparation_pos o)
    exact Drawing.winds_of_inTurn (hP.afterAll h hplaces calls hcreated c)

theorem keepsTurn_twoParts : ∃ d : Drawing ℝ,
    Drawing.build Drawing.twoParts Drawing.pairRing = .ok d ∧ KeepsTurn Drawing.pairRing d ∧
      Drawing.Winds (Operation.run [.arrange 0 10, .rotate 0 1] d) 0 ∧
      Drawing.Filled (d.spread 0 10) 0 10 ∧
      Drawing.Winds ((ofDrawing d Drawing.pairRing).afterAll [.prerun, .postrun]).drawing 0 := by
  have hkeeps := keepsTurn Drawing.build_twoParts
  refine ⟨_, Drawing.build_twoParts, hkeeps, ?_, ?_, ?_⟩
  · refine hkeeps.run _ ?_ 0 ⟨_, List.mem_cons_self, 10, Or.inl rfl⟩
    simp [Spacious, Operation.Fits, Operation.separation?]
  · exact (hkeeps.spread [] (fun _ hop => absurd hop List.not_mem_nil) 0 10 (by norm_num) le_rfl).1
  · apply hkeeps.afterAll (Or.inl Quality.noConfusion)
    exact stage_ne_of_prerun (informed_ofDrawing Drawing.build_twoParts) _

end Run

end RingLayout
