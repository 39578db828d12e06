import RingLayout.Proofs.Angles.Chords
import RingLayout.Proofs.Bounds

/-! # What the hubs of rings enclose

Whenever a ring is laid out, its hub is made a square around the circle with its longest member on
it. In exact arithmetic no later operation brings a member on the ring out of this square, as
members stay on the circle and keep their sizes, and the circle stays with the hub.
-/

namespace RingLayout

namespace Box

variable {a b : Box ℝ}

/-- One box covers another if their centers are close enough along both axes. -/
theorem covers_iff_center : b.Covers a ↔
    |a.center.x - b.center.x| + a.width / 2 ≤ b.width / 2 ∧
      |a.center.y - b.center.y| + a.height / 2 ≤ b.height / 2 := by
  have htwo : (2.0 : ℝ) = 2 := by norm_num
  simp only [← le_sub_iff_add_le, abs_le, center, centerX, centerY, htwo]
  constructor
  · rintro ⟨hleft, htop, hright, hbottom⟩
    unfold right at hright
    unfold bottom at hbottom
    refine ⟨⟨?_, ?_⟩, ?_, ?_⟩ <;> linarith
  · rintro ⟨⟨hleft, hright⟩, htop, hbottom⟩
    refine ⟨by linarith, by linarith, ?_, ?_⟩
    · unfold right
      linarith
    · unfold bottom
      linarith

theorem width_le_diagonal (b : Box ℝ) : b.width ≤ b.diagonal :=
  Real.le_sqrt_of_sq_le (by linarith [sq b.width, mul_self_nonneg b.height])

theorem height_le_diagonal (b : Box ℝ) : b.height ≤ b.diagonal :=
  Real.le_sqrt_of_sq_le (by linarith [sq b.height, mul_self_nonneg b.width])

/-- A square covers a box that has room for its diagonal in all directions. -/
theorem covers_of_distance_le (hsquare : b.height = b.width)
    (h : a.center.distance b.center + a.diagonal / 2 ≤ b.width / 2) : b.Covers a := by
  have hsq := Point.distance_sq a.center b.center
  have hnonneg := Point.distance_nonneg a.center b.center
  have hx : |a.center.x - b.center.x| ≤ a.center.distance b.center :=
    abs_le_of_sq_le_sq (by linarith [sq_nonneg (a.center.y - b.center.y)]) hnonneg
  have hy : |a.center.y - b.center.y| ≤ a.center.distance b.center :=
    abs_le_of_sq_le_sq (by linarith [sq_nonneg (a.center.x - b.center.x)]) hnonneg
  rw [covers_iff_center, hsquare]
  exact ⟨by linarith [a.width_le_diagonal], by linarith [a.height_le_diagonal]⟩

/-- No box covers a larger one. -/
theorem Covers.sides_le (h : b.Covers a) : a.width ≤ b.width ∧ a.height ≤ b.height := by
  obtain ⟨hx, hy⟩ := covers_iff_center.mp h
  have hx' := abs_nonneg (a.center.x - b.center.x)
  have hy' := abs_nonneg (a.center.y - b.center.y)
  exact ⟨by linarith, by linarith⟩

/-- A box at the center of another one is covered unless it is larger. -/
theorem covers_of_center_eq (hcenter : a.center = b.center) (hwidth : a.width ≤ b.width)
    (hheight : a.height ≤ b.height) : b.Covers a := by
  rw [covers_iff_center, hcenter, sub_self, sub_self, abs_zero]
  exact ⟨by linarith, by linarith⟩

theorem diagonal_congr (h : a.size = b.size) : a.diagonal = b.diagonal := by
  obtain ⟨hwidth, hheight⟩ := Prod.mk.inj h
  simp only [diagonal, hwidth, hheight]

end Box

namespace Drawing

/-! ## Girded circles -/

/-- The hub of a ring is a square around the circle with a member on it. -/
structure GirdsMember (d : Drawing ℝ) (c v : Nat) : Prop where
  radius_nonneg : 0 ≤ (d.ring c).radius
  square : (d.body (d.ring c).hub).box.height = (d.body (d.ring c).hub).box.width
  le_side : 2 * (d.ring c).radius + (d.body v).box.diagonal ≤ (d.body (d.ring c).hub).box.width

def Girded (d : Drawing ℝ) (c : Nat) : Prop := ∀ v ∈ (d.ring c).order, GirdsMember d c v

variable {S : ℝ → Prop} {members : Nat → List Nat} {d d' : Drawing ℝ} {c : Nat}

/-- Nothing matters but the radius of the circle and the sizes of the hub and the members. -/
theorem Girded.resized (h : Girded d c) (hhub : (d'.ring c).hub = (d.ring c).hub)
    (hradius : (d'.ring c).radius = (d.ring c).radius)
    (horder : (d'.ring c).order ⊆ (d.ring c).order)
    (hsize : ∀ v, v = (d.ring c).hub ∨ v ∈ (d.ring c).order →
      (d'.body v).box.size = (d.body v).box.size) : Girded d' c := by
  intro v hv
  obtain ⟨hnonneg, hsquare, hside⟩ := h v (horder hv)
  obtain ⟨hwidth, hheight⟩ := Prod.mk.inj (hsize _ (Or.inl rfl))
  have hdiagonal := Box.diagonal_congr (hsize v (Or.inr (horder hv)))
  constructor
  case radius_nonneg => rwa [hradius]
  case square => rw [hhub, hwidth, hheight, hsquare]
  case le_side => rwa [hhub, hradius, hwidth, hdiagonal]

theorem KeepsRing.girded (h : KeepsRing c d d') (hgirded : Girded d c) : Girded d' c :=
  hgirded.resized h.hub_eq h.radius_eq (h.order_eq ▸ List.Subset.refl _)
    fun v hv => congrArg Box.size (h.box_eq v hv)

theorem foldl_max_le_iff {l : List ℝ} {x bound : ℝ} :
    l.foldl max x ≤ bound ↔ x ≤ bound ∧ ∀ y ∈ l, y ≤ bound := by
  induction l generalizing x with
  | nil => simp
  | cons y rest ih => rw [List.foldl_cons, ih, max_le_iff, List.forall_mem_cons, and_assoc]

theorem longestDiagonal_le_iff {l : List Nat} {bound : ℝ} : d.longestDiagonal l ≤ bound ↔
    0 ≤ bound ∧ ∀ v ∈ l, (d.body v).box.diagonal ≤ bound := by
  have hmax : (Scalar.maxNum : ℝ → ℝ → ℝ) = max := by
    funext x y
    rw [Scalar.maxNum_real, max_comm]
  have hzero : (0.0 : ℝ) = 0 := by norm_num
  rw [longestDiagonal, hmax, hzero, foldl_max_le_iff, List.forall_mem_map]

/-- The side of the hub of a ring that is laid out. -/
noncomputable def spreadSide (d : Drawing ℝ) (c : Nat) (separation : ℝ) : ℝ :=
  max 1 (2.0 * d.spreadRadius c separation + d.longestDiagonal (d.ring c).order)

theorem size_hub_spread (hd : d.skeleton.Sound members) {v : Nat} (hv : v ∈ (d.ring c).order)
    (separation : ℝ) : ((d.spread c separation).body (d.ring c).hub).box.size =
      (d.spreadSide c separation, d.spreadSide c separation) := by
  have hbox : ∀ u, ((d.turned c separation).body u).box = (d.body u).box :=
    fun u => box_assignAngles ..
  have hring : (d.turned c separation).ring c =
      { d.ring c with radius := d.spreadRadius c separation } := by
    refine (ring_of_rings (rings_assignAngles ..) c).trans ?_
    rw [ring_modifyRing d (lt_size_of_mem_order hv), if_pos rfl]
  have hhub : (d.ring c).hub < (d.turned c separation).bodies.size := by
    have hcount : (d.turned c separation).bodies.size = d.bodies.size :=
      congrArg Skeleton.bodyCount (skeleton_turned hd.seated c separation)
    rw [hcount]
    exact lt_size_of_mem_crew hd (lt_size_of_mem_order hv) _ List.mem_cons_self
  have hlongest : (d.turned c separation).longestDiagonal (d.ring c).order =
      d.longestDiagonal (d.ring c).order := by
    simp only [longestDiagonal, hbox]
  have hside : Scalar.maxNum (2.0 * d.spreadRadius c separation +
      d.longestDiagonal (d.ring c).order) 1.0 = d.spreadSide c separation := by
    rw [Scalar.maxNum_real, spreadSide]
    norm_num
  rw [spread_eq, if_neg (List.ne_nil_of_mem hv), size_placeMembers]
  simp only [fitHub, hring, hlongest, hside]
  rw [body_modifyBody _ hhub, if_pos rfl]
  rfl

theorem spreadRadius_nonneg (d : Drawing ℝ) (c : Nat) {separation : ℝ}
    (hseparation : 0 ≤ separation) : 0 ≤ d.spreadRadius c separation := by
  rw [spreadRadius, Scalar.sum_real]
  split
  · norm_num
  · refine div_nonneg (List.sum_nonneg fun span hspan => ?_) Real.two_pi_pos.le
    obtain ⟨v, -, rfl⟩ := List.mem_map.mp hspan
    exact add_nonneg (Real.sqrt_nonneg _) hseparation

theorem girded_spread (hd : d.skeleton.Sound members) (c : Nat) {separation : ℝ}
    (hseparation : 0 ≤ separation) : Girded (d.spread c separation) c := by
  intro v hv
  rw [order_spread hd] at hv
  have hhub : ((d.spread c separation).ring c).hub = (d.ring c).hub :=
    congrArg (fun s => (s.ring c).hub) (skeleton_spread hd.seated c separation)
  obtain ⟨hwidth, hheight⟩ := Prod.mk.inj (size_hub_spread hd hv separation)
  have hlongest := (longestDiagonal_le_iff.mp (le_refl (d.longestDiagonal (d.ring c).order))).2 v hv
  constructor
  case radius_nonneg =>
    rw [radius_spread d hv]
    exact d.spreadRadius_nonneg c hseparation
  case square => rw [hhub, hwidth, hheight]
  case le_side =>
    rw [hhub, hwidth, radius_spread d hv, diagonal_spread hd hv]
    exact le_max_of_le_right (by linarith)

theorem girded_shift (h : Girded d c) (delta : Point ℝ) :
    Girded { d with bodies := d.bodies.map (·.translate delta) } c :=
  h.resized rfl rfl (List.Subset.refl _)
    fun v _ => view_mapBodies (fun b => b.box.size) d v fun _ => rfl

/-! ## Members that change seats -/

/-- The members on a ring have changed seats, but nothing has moved. -/
structure Shuffled (c : Nat) (d e : Drawing ℝ) : Prop where
  hub_eq : (e.ring c).hub = (d.ring c).hub
  radius_eq : (e.ring c).radius = (d.ring c).radius
  inside_eq : (e.ring c).inside = (d.ring c).inside
  order_perm : (e.ring c).order.Perm (d.ring c).order
  box_eq : ∀ v, (e.body v).box = (d.body v).box

/-- A ring whose members are reordered. -/
theorem shuffled_of_order {e : Drawing ℝ} (reorder : List Nat → List Nat) (hc : c < d.rings.size)
    (hrings : e.rings = d.rings.modify c fun r => { r with order := reorder r.order })
    (horder : (reorder (d.ring c).order).Perm (d.ring c).order)
    (hbox : ∀ v, (e.body v).box = (d.body v).box) : Shuffled c d e := by
  have hring : e.ring c = { d.ring c with order := reorder (d.ring c).order } := by
    refine (ring_of_rings (d := d.modifyRing c fun r => { r with order := reorder r.order })
      hrings c).trans ?_
    rw [ring_modifyRing d hc, if_pos rfl]
  constructor
  case box_eq => exact hbox
  case order_perm => rwa [hring]
  all_goals rw [hring]

theorem exists_shuffled_rotateRing (d : Drawing ℝ) (c : Nat) (angle : ℝ) :
    d.rotateRing c angle = d ∨ ∃ e, Shuffled c d e ∧ d.rotateRing c angle = e.placeMembers c := by
  rw [rotateRing_eq]
  split
  · exact Or.inl rfl
  · have hring := d.ring_swung c angle c
    refine Or.inr ⟨_, ⟨?_, ?_, ?_, ?_, fun v => ?_⟩, rfl⟩
    · rw [hring]
    · rw [hring]
    · rw [hring]
    · rw [hring]
    · exact d.box_swung c angle v

theorem exists_shuffled_swapWithNext (d : Drawing ℝ) (c i : Nat) :
    d.swapWithNext c i = d ∨ ∃ e, Shuffled c d e ∧ d.swapWithNext c i = e.placeMembers c := by
  rcases d.swapWithNext_cases c i with heq | ⟨j, u, v, -, -, hu, -, heq⟩
  · exact Or.inl heq
  · have hc := lt_size_of_mem_order (List.mem_of_getElem? hu)
    refine Or.inr ⟨_, shuffled_of_order (fun order => CyclicOrder.exchange order i j) hc
      rfl (CyclicOrder.exchange_perm _ _ _) fun w => ?_, heq⟩
    exact (box_modifySeat _ v w _).trans (d.box_modifySeat u w _)

theorem exists_shuffled_reverseRing (d : Drawing ℝ) (c : Nat) :
    d.reverseRing c = d ∨ ∃ e, Shuffled c d e ∧ d.reverseRing c = e.placeMembers c := by
  rw [reverseRing_eq]
  split
  · exact Or.inl rfl
  next hlong =>
    obtain ⟨v, hv⟩ := List.exists_mem_of_length_pos (Nat.lt_of_lt_of_le three_pos (not_lt.mp hlong))
    refine Or.inr ⟨_, shuffled_of_order (fun _ => CyclicOrder.reverse (d.ring c).order)
      (lt_size_of_mem_order hv) ?_ (CyclicOrder.reverse_perm _) fun w => ?_, rfl⟩
    · refine congrArg (fun rings : Array (Ring ℝ) => rings.modify c fun r =>
        { r with order := CyclicOrder.reverse (d.ring c).order }) ((rings_renumber _ 0 _).trans ?_)
      exact foldl_eq_of_step_eq Drawing.rings (fun _ _ => by rfl) _ d
    · refine (box_renumber _ 0 _ w).trans ?_
      exact foldl_eq_of_step_eq (fun e : Drawing ℝ => (e.body w).box)
        (fun e u => e.box_modifySeat u w _) _ d

/-- Placing the members afterwards changes no size. -/
theorem Shuffled.girded {e : Drawing ℝ} (h : Shuffled c d e) (hgirded : Girded d c) :
    Girded (e.placeMembers c) c := by
  apply hgirded.resized
  case hhub => rw [ring_placeMembers, h.hub_eq]
  case hradius => rw [ring_placeMembers, h.radius_eq]
  case horder =>
    rw [ring_placeMembers]
    exact h.order_perm.subset
  case hsize => exact fun v _ => (size_placeMembers e c v).trans (congrArg Box.size (h.box_eq v))

/-- A member that goes inside a ring leaves the order of the others. -/
theorem ring_moveInside_cases (d : Drawing ℝ) (c v : Nat) :
    (d.moveInside c v).ring c = d.ring c ∨ ∃ i, (d.moveInside c v).ring c =
      { d.ring c with
        order := (d.ring c).order.eraseIdx i
        inside := (d.ring c).inside ++ [v] } := by
  rcases d.moveInside_cases c v with heq | ⟨i, seated, inside, hv, heq⟩
  · exact Or.inl (congrArg (ring · c) heq)
  · obtain ⟨hi, hget, -⟩ := List.idxOf?_eq_some_iff.mp hv
    have hmem : v ∈ (d.ring c).order := hget ▸ List.getElem_mem hi
    refine Or.inr ⟨i, ?_⟩
    rw [heq]
    exact d.ring_withdrawn (lt_size_of_mem_order hmem) i v

theorem girded_moveInside (h : Girded d c) (v : Nat) : Girded (d.moveInside c v) c := by
  have hsize := fun u (_ : u = (d.ring c).hub ∨ u ∈ (d.ring c).order) => d.size_moveInside c v u
  rcases d.ring_moveInside_cases c v with hring | ⟨i, hring⟩
  · apply h.resized _ _ _ hsize <;> rw [hring]
    exact List.Subset.refl _
  · apply h.resized _ _ _ hsize <;> rw [hring]
    exact (List.eraseIdx_sublist _ _).subset

/-- No motion loosens the hub of a ring, if rings are laid out with some separation. -/
theorem RingMotion.girded (h : RingMotion (0 ≤ ·) c d d') (hd : d.skeleton.Sound members)
    (hgirded : Girded d c) : Girded d' c := by
  have hshuffled : ∀ {e : Drawing ℝ}, (e = d ∨ ∃ f, Shuffled c d f ∧ e = f.placeMembers c) →
      Girded e c := by
    rintro e (rfl | ⟨f, hf, rfl⟩)
    · exact hgirded
    · exact hf.girded hgirded
  cases h with
  | translate delta hc =>
      apply hgirded.resized
      case hhub => rw [ring_translateRing]
      case hradius => rw [ring_translateRing]
      case horder =>
        rw [ring_translateRing]
        exact List.Subset.refl _
      case hsize => exact fun v _ => d.size_translateRing c delta v
  | rotate angle => exact hshuffled (d.exists_shuffled_rotateRing c angle)
  | swap i => exact hshuffled (d.exists_shuffled_swapWithNext c i)
  | reverse => exact hshuffled (d.exists_shuffled_reverseRing c)
  | withdraw v => exact girded_moveInside hgirded v
  | spread separation hseparation => exact girded_spread hd c hseparation
  | arrange separation hseparation =>
      rw [arrangeRing_eq]
      exact girded_spread (sound_arranged hd c) c hseparation

theorem Motion.girded (h : Motion (0 ≤ ·) d d') (hd : d.skeleton.Sound members)
    (hgirded : Girded d c) : Girded d' c := by
  by_cases hc : c < d.rings.size
  · rcases h.ring_cases hd hc with hkeeps | ⟨delta, rfl⟩ | hring
    · exact hkeeps.girded hgirded
    · exact girded_shift hgirded delta
    · exact hring.girded hd hgirded
  -- a ring that does not exist has no members
  · intro v hv
    have hsize : d'.rings.size = d.rings.size := (h.evolves hd).ringCount_eq
    exact absurd (hsize ▸ lt_size_of_mem_order hv) hc

/-! ## Members on the ring -/

/-- The hub of a ring covers the members on it. -/
def CoversOrder (d : Drawing ℝ) (c : Nat) : Prop :=
  ∀ v ∈ (d.ring c).order, (d.body (d.ring c).hub).box.Covers (d.body v).box

theorem OnCircle.coversOrder (h : OnCircle d c) (hgirded : Girded d c) : CoversOrder d c := by
  intro v hv
  obtain ⟨hnonneg, hsquare, hside⟩ := hgirded v hv
  have hdistance : (d.body v).box.center.distance (d.body (d.ring c).hub).box.center =
      (d.ring c).radius := (h.distance_eq hv).trans (abs_of_nonneg hnonneg)
  refine Box.covers_of_distance_le hsquare ?_
  rw [hdistance]
  linarith

/-- A ring that has been laid out has its members on a circle that its hub goes around. -/
theorem lasting_girded (members : Nat → List Nat) :
    Lasting (0 ≤ ·) members fun c d => OnCircle d c ∧ Girded d c where
  vacant d c hnil := by
    have hnobody : ∀ v, v ∉ (d.ring c).order := fun v => hnil ▸ List.not_mem_nil
    exact ⟨fun v hv => absurd hv (hnobody v), fun v hv => absurd hv (hnobody v)⟩
  spread d c separation hd hseparation :=
    ⟨onCircle_spread hd c separation, girded_spread hd c hseparation⟩
  kept d d' c hd h hmotion := ⟨hmotion.onCircle hd h.1, hmotion.girded hd h.2⟩

end Drawing

end RingLayout
