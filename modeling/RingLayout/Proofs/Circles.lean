import RingLayout.Proofs.Scalar.Real
import RingLayout.Proofs.Motions.Members
import RingLayout.Proofs.Motions.Run

/-! # Members on their circles

The center, the radius, the angles and the boxes of a ring are kept apart and changed by different
operations. In exact arithmetic they agree from the moment at which a ring is laid out: every
member on it has its center at the point of the circle at its angle.
-/

namespace RingLayout

namespace Box

theorem center_centered (p : Point ℝ) (width height : ℝ) :
    (Box.centered p width height).center = p :=
  congrArg₂ Point.mk (sub_add_cancel _ _) (sub_add_cancel _ _)

theorem center_translate (b : Box ℝ) (delta : Point ℝ) :
    (b.translate delta).center = b.center.add delta :=
  congrArg₂ Point.mk (add_right_comm _ _ _) (add_right_comm _ _ _)

end Box

theorem Point.distance_nonneg (p q : Point ℝ) : 0 ≤ p.distance q := Real.sqrt_nonneg _

theorem Point.distance_sq (p q : Point ℝ) :
    p.distance q ^ 2 = (p.x - q.x) ^ 2 + (p.y - q.y) ^ 2 := by
  have hdistance : p.distance q = √((p.x - q.x) * (p.x - q.x) + (p.y - q.y) * (p.y - q.y)) := rfl
  rw [hdistance, Real.sq_sqrt (add_nonneg (mul_self_nonneg _) (mul_self_nonneg _)), sq, sq]

theorem Point.onCircle_add (center delta : Point ℝ) (radius angle : ℝ) :
    (Point.onCircle center radius angle).add delta =
      Point.onCircle (center.add delta) radius angle :=
  congrArg₂ Point.mk (add_right_comm _ _ _) (add_right_comm _ _ _)

/-- The way from the center of a circle to a point of it. -/
theorem Point.sub_onCircle (center : Point ℝ) (radius angle : ℝ) :
    (Point.onCircle center radius angle).sub center =
      ⟨radius * Real.cos angle, radius * Real.sin angle⟩ :=
  congrArg₂ Point.mk (add_sub_cancel_left _ _) (add_sub_cancel_left _ _)

theorem Point.distance_onCircle_center (center : Point ℝ) (radius angle : ℝ) :
    (Point.onCircle center radius angle).distance center = |radius| := by
  obtain ⟨hx, hy⟩ := Point.mk.inj (Point.sub_onCircle center radius angle)
  rw [← abs_of_nonneg (Point.distance_nonneg _ _), ← sq_eq_sq_iff_abs_eq_abs, Point.distance_sq,
    hx, hy]
  linear_combination radius ^ 2 * Real.cos_sq_add_sin_sq angle

/-- A force at a point of a circle pulls along the circle by its component in the direction of
growing angles. -/
theorem Point.alongCircle_onCircle (center force : Point ℝ) {radius : ℝ} (hradius : 1e-9 ≤ radius)
    (angle : ℝ) : (Point.alongCircle center (Point.onCircle center radius angle) force).1 =
      force.y * Real.cos angle - force.x * Real.sin angle := by
  have hpos : 0 < radius := lt_of_lt_of_le (by norm_num) hradius
  have hnorm : ((Point.onCircle center radius angle).sub center).norm = radius :=
    (Point.distance_onCircle_center center radius angle).trans (abs_of_pos hpos)
  have htangent : ∀ x : ℝ, radius * x / radius = x := fun x => mul_div_cancel_left₀ x hpos.ne'
  rw [Point.alongCircle]
  dsimp only
  rw [hnorm, if_neg (not_lt.mpr hradius), Point.sub_onCircle, ← mul_neg, htangent, htangent]
  change force.x * -Real.sin angle + force.y * Real.cos angle = _
  ring

namespace Drawing

/-! ## Circles -/

/-- Every member on a ring is at the point of the circle at its angle. -/
def OnCircle {K : Type} [Scalar K] (d : Drawing K) (c : Nat) : Prop :=
  ∀ v ∈ (d.ring c).order,
    (d.body v).center = Point.onCircle (d.ringCenter c) (d.ring c).radius (d.angleOf v)

variable {S : ℝ → Prop} {members : Nat → List Nat} {d d' : Drawing ℝ} {c : Nat}

theorem KeepsRing.onCircle (h : KeepsRing c d d') (hcircle : OnCircle d c) : OnCircle d' c := by
  intro v hv
  rw [h.order_eq] at hv
  have hcenter : (d'.body v).center = (d.body v).center :=
    congrArg Box.center (h.box_eq v (Or.inr hv))
  rw [hcenter, h.ringCenter_eq, h.radius_eq, h.angle_eq v hv]
  exact hcircle v hv

/-- Placing the members puts them on the circle. -/
theorem onCircle_placeMembers (hd : (d.placeMembers c).skeleton.Sound members) :
    OnCircle (d.placeMembers c) c := by
  rw [skeleton_placeMembers] at hd
  have hbody := body_placeMembers hd c
  intro v hv
  rw [ring_placeMembers] at hv
  have hhub := hub_notMem_order hd (lt_size_of_mem_order hv)
  rw [ringCenter, angleOf_eq, ring_placeMembers, hbody v, if_pos hv, hbody, if_neg hhub]
  exact Box.center_centered _ _ _

/-- A change of center that moves hub and members alike. -/
theorem OnCircle.moved (h : OnCircle d c) (delta : Point ℝ) (hring : d'.ring c = d.ring c)
    (hbody : ∀ v, v = (d.ring c).hub ∨ v ∈ (d.ring c).order →
      d'.body v = (d.body v).translate delta) : OnCircle d' c := by
  intro v hv
  rw [hring] at hv
  rw [ringCenter, angleOf_eq, hring, hbody v (Or.inr hv), hbody _ (Or.inl rfl)]
  change ((d.body v).box.translate delta).center =
    Point.onCircle ((d.body (d.ring c).hub).box.translate delta).center _ (d.body v).angle
  rw [Box.center_translate, Box.center_translate, ← Point.onCircle_add, ← angleOf_eq]
  exact congrArg (Point.add · delta) (h v hv)

theorem onCircle_translateRing (h : OnCircle d c) (hd : d.skeleton.Sound members)
    (hc : c < d.rings.size) (delta : Point ℝ) : OnCircle (d.translateRing c delta) c := by
  apply h.moved delta (ring_translateRing d c c delta)
  intro v hv
  rw [body_translateRing hd hc, if_pos]
  rcases hv with rfl | hv
  · exact List.mem_cons_self
  · exact List.mem_cons_of_mem _ (List.mem_append_left _ hv)

theorem onCircle_shift (h : OnCircle d c) (hd : d.skeleton.Sound members)
    (hc : c < d.rings.size) (delta : Point ℝ) :
    OnCircle { d with bodies := d.bodies.map (·.translate delta) } c := by
  refine h.moved delta rfl fun v hv => ?_
  have hlt : v < d.bodies.size := by
    rcases hv with rfl | hv
    · exact lt_size_of_mem_crew hd hc _ List.mem_cons_self
    · exact lt_size_of_seated hd.seated hv
  simp only [body, Array.getD_eq_getD_getElem?, Array.getElem?_map, Array.getElem?_eq_getElem hlt,
    Option.map_some, Option.getD_some]

/-- A member that goes inside leaves the others where they are. -/
theorem onCircle_moveInside (h : OnCircle d c) (hd : d.skeleton.Sound members) (v : Nat) :
    OnCircle (d.moveInside c v) c := by
  rcases d.moveInside_cases c v with heq | ⟨i, seated, inside, hv, heq⟩
  · rwa [heq]
  · obtain ⟨hi, hget, -⟩ := List.idxOf?_eq_some_iff.mp hv
    have hmem : v ∈ (d.ring c).order := hget ▸ List.getElem_mem hi
    have hring := d.ring_withdrawn (lt_size_of_mem_order hmem) i v
    rw [heq]
    change OnCircle (d.withdrawn c i v) c
    intro u hu
    rw [hring] at hu
    have hne : u ≠ v := ne_of_mem_eraseIdx hd hv hu
    have hcenter : ∀ w, ((d.withdrawn c i v).body w).center = (d.body w).center :=
      fun w => congrArg Box.center (d.box_withdrawn c i v w)
    rw [ringCenter, angleOf_eq, hring, hcenter, hcenter, d.angle_withdrawn c i hne, ← angleOf_eq]
    exact h u (List.mem_of_mem_eraseIdx hu)

theorem onCircle_spread (hd : d.skeleton.Sound members) (c : Nat) (separation : ℝ) :
    OnCircle (d.spread c separation) c := by
  have hspread : (d.spread c separation).skeleton.Sound members := by
    rwa [skeleton_spread hd.seated]
  rw [spread_eq] at hspread ⊢
  split at hspread
  next hempty =>
    intro v hv
    rw [if_pos hempty] at hv
    have horder : ((d.turned c separation).ring c).order = (d.ring c).order :=
      congrArg (fun s => (s.ring c).order) (skeleton_turned hd.seated c separation)
    rw [horder, hempty] at hv
    exact absurd hv List.not_mem_nil
  next hne =>
    rw [if_neg hne]
    exact onCircle_placeMembers hspread

theorem onCircle_arrangeRing (hd : d.skeleton.Sound members) (c : Nat) (separation : ℝ) :
    OnCircle (Run.arrangeRing d c separation) c :=
  onCircle_spread (sound_arranged hd c) c separation

/-- Members stay on their circle in all motions of their ring. -/
theorem RingMotion.onCircle (h : RingMotion S c d d') (hd : d.skeleton.Sound members)
    (hc : c < d.rings.size) (hcircle : OnCircle d c) : OnCircle d' c := by
  have hd' := (h.evolves hd).sound
  cases h with
  | translate delta => exact onCircle_translateRing hcircle hd hc delta
  | rotate angle =>
      rw [rotateRing_eq] at hd' ⊢
      split at hd'
      next hzero => rwa [if_pos hzero]
      next hzero =>
        rw [if_neg hzero]
        exact onCircle_placeMembers hd'
  | swap i =>
      rcases d.swapWithNext_cases c i with heq | ⟨j, u, v, -, -, -, -, heq⟩
      · rwa [heq]
      · rw [heq] at hd' ⊢
        exact onCircle_placeMembers hd'
  | reverse =>
      rw [reverseRing_eq] at hd' ⊢
      split at hd'
      next hshort => rwa [if_pos hshort]
      next hlong =>
        rw [if_neg hlong]
        exact onCircle_placeMembers hd'
  | withdraw v => exact onCircle_moveInside hcircle hd v
  | spread separation => exact onCircle_spread hd c separation
  | arrange separation => exact onCircle_arrangeRing hd c separation

/-- Members stay on their circles in all motions. -/
theorem Motion.onCircle (h : Motion S d d') (hd : d.skeleton.Sound members)
    (hcircle : OnCircle d c) : OnCircle d' c := by
  by_cases hc : c < d.rings.size
  · rcases h.ring_cases hd hc with hkeeps | ⟨delta, rfl⟩ | hring
    · exact hkeeps.onCircle hcircle
    · exact onCircle_shift hcircle hd hc delta
    · exact hring.onCircle hd hc hcircle
  -- a ring that does not exist has no members
  · intro v hv
    have hsize : d'.rings.size = d.rings.size := (h.evolves hd).ringCount_eq
    exact absurd (hsize ▸ Drawing.lt_size_of_mem_order hv) hc

/-- Members are on their circle once their ring is laid out. -/
theorem lasting_onCircle (members : Nat → List Nat) :
    Lasting S members fun c d => OnCircle d c where
  vacant d c hnil v hv := by
    rw [hnil] at hv
    exact absurd hv List.not_mem_nil
  spread d c separation hd _ := onCircle_spread hd c separation
  kept d d' c hd hcircle hmotion := hmotion.onCircle hd hcircle

/-- All members on a ring are equally far from its hub. -/
theorem OnCircle.distance_eq (h : OnCircle d c) {v : Nat} (hv : v ∈ (d.ring c).order) :
    (d.body v).center.distance (d.ringCenter c) = |(d.ring c).radius| := by
  rw [h v hv]
  exact Point.distance_onCircle_center _ _ _

end Drawing

namespace Run

/-- All members on rings are on the circles around the hubs. -/
structure Circled (d : Drawing ℝ) : Prop where
  onCircle : ∀ c, Drawing.OnCircle d c
  distance_eq : ∀ c, ∀ v ∈ (d.ring c).order,
    (d.body v).center.distance (d.ringCenter c) = |(d.ring c).radius|

theorem circled_of_onCircle {d : Drawing ℝ} (h : ∀ c, Drawing.OnCircle d c) : Circled d :=
  ⟨h, fun c _ hv => (h c).distance_eq hv⟩

/-- What keeps the members of a new drawing on their circles. -/
structure KeepsCircles (o : Options ℝ) (d : Drawing ℝ) : Prop where
  /-- A ring that some operation lays out has its members on the circle after all operations. -/
  run : ∀ ops : List (Operation ℝ), (∀ op ∈ ops, op.Fits d) →
    ∀ c, (∃ op ∈ ops, op.LaysOut c) → Drawing.OnCircle (Operation.run ops d) c
  /-- So it is with all rings in every state that a caller sees after the preparation. -/
  afterAll : o.PlacesRings → ∀ calls, ((ofDrawing d o).afterAll calls).stage ≠ .created →
    Circled ((ofDrawing d o).afterAll calls).drawing
  starts : o.PlacesRings → ∀ calls, ∀ q ∈ (ofDrawing d o).starts calls, Circled q.drawing
  complete : o.PlacesRings → ∀ (σ : Type) (clock : Clock) (observe : σ → Run ℝ → σ) (seen : σ),
    Circled ((ofDrawing d o).complete clock observe seen).2.drawing

theorem keepsCircles {g : Graph ℝ} {o : Options ℝ} {d : Drawing ℝ}
    (h : Drawing.build g o = .ok d) : KeepsCircles o d := by
  have hd := Drawing.sound_build h
  have hlasting := Drawing.lasting_onCircle (S := fun _ => True) fun c => (d.ring c).order
  have hP := enduring_of_lasting (o := o) hlasting trivial
  constructor
  case run => exact fun ops hfits c => hlasting.run hd hfits fun _ _ _ _ => trivial
  case afterAll =>
    exact fun hplaces calls hcreated => circled_of_onCircle (hP.afterAll h hplaces calls hcreated)
  case starts =>
    exact fun hplaces calls q hq => circled_of_onCircle (hP.starts h hplaces calls q hq)
  case complete =>
    intro hplaces σ clock observe seen
    obtain ⟨n, hn⟩ := complete_eq_afterAll clock observe seen (ofDrawing d o)
    rw [hn]
    apply circled_of_onCircle
    apply hP.afterAll h hplaces
    exact stage_ne_of_prerun (informed_ofDrawing h) _

theorem keepsCircles_twoParts : ∃ d : Drawing ℝ,
    Drawing.build Drawing.twoParts Drawing.pairRing = .ok d ∧ KeepsCircles Drawing.pairRing d ∧
      Drawing.OnCircle (Operation.run [.arrange 0 10, .rotate 0 1] d) 0 ∧
      Circled ((ofDrawing d Drawing.pairRing).afterAll [.prerun, .postrun]).drawing := by
  have hkeeps := keepsCircles Drawing.build_twoParts
  refine ⟨_, Drawing.build_twoParts, hkeeps, ?_, ?_⟩
  · exact hkeeps.run _ (by simp [Operation.Fits]) 0 ⟨_, List.mem_cons_self, 10, Or.inl rfl⟩
  · apply hkeeps.afterAll (Or.inl Quality.noConfusion)
    exact stage_ne_of_prerun (informed_ofDrawing Drawing.build_twoParts) _

end Run

namespace Drawing

/-- Three nodes in a row. -/
noncomputable def row : Graph ℝ where
  nodes := [⟨"a", 30.0, 20.0, some ⟨0.0, 0.0⟩, none, false⟩,
    ⟨"b", 30.0, 20.0, some ⟨100.0, 0.0⟩, none, false⟩,
    ⟨"c", 30.0, 20.0, some ⟨200.0, 0.0⟩, none, false⟩]
  edges := []

/-- The three share a ring, but the draft keeps the given positions. -/
noncomputable def rowDraft : Options ℝ :=
  { (Options.defaults : Options ℝ) with
    quality := .draft, randomize := false, clustering := .cells [["a", "b", "c"]] }

theorem build_row : build row rowDraft = .ok (ofClusters row rowDraft [[0, 1, 2]]) := rfl

end Drawing

namespace Run

/-- A draft without randomization lays no ring out. So its members need not be on a circle, not
even after the preparation. -/
theorem not_circled_row : ¬∀ (g : Graph ℝ) (o : Options ℝ) (d : Drawing ℝ) (calls : List Call),
    Drawing.build g o = .ok d → ((ofDrawing d o).afterAll calls).stage ≠ .created →
      ∀ c, ∃ center : Point ℝ, ∃ radius,
        ∀ v ∈ (((ofDrawing d o).afterAll calls).drawing.ring c).order,
          ((((ofDrawing d o).afterAll calls).drawing.body v).center.distance center) = radius := by
  intro hall
  obtain ⟨center, radius, hcircle⟩ := hall _ _ _ [.prerun] Drawing.build_row
    (stage_ne_of_prerun (informed_ofDrawing Drawing.build_row) []) 0
  have hsame : ((ofDrawing (Drawing.ofClusters Drawing.row Drawing.rowDraft [[0, 1, 2]])
      Drawing.rowDraft).afterAll [.prerun]).drawing =
        Drawing.ofClusters Drawing.row Drawing.rowDraft [[0, 1, 2]] := rfl
  rw [hsame] at hcircle
  have hsquare : ∀ v p, v ∈ [0, 1, 2] →
      ((Drawing.ofClusters Drawing.row Drawing.rowDraft [[0, 1, 2]]).body v).center = p →
        (p.x - center.x) ^ 2 + (p.y - center.y) ^ 2 = radius ^ 2 := by
    rintro v _ hv rfl
    rw [← hcircle v hv, Point.distance_sq]
  have h0 := hsquare 0 ⟨0.0, 0.0⟩ (by simp) (Box.center_centered _ _ _)
  have h1 := hsquare 1 ⟨100.0, 0.0⟩ (by simp) (Box.center_centered _ _ _)
  have h2 := hsquare 2 ⟨200.0, 0.0⟩ (by simp) (Box.center_centered _ _ _)
  norm_num at h0 h1 h2
  linarith

end Run

end RingLayout
