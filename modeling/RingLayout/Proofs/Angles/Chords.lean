import RingLayout.Proofs.Angles.Spread
import RingLayout.Proofs.Circles
import RingLayout.Proofs.Extents

/-! # How far apart members are

The spans of the members fill the circle as arcs, but boxes are only as far apart as the chords over
these arcs. In exact arithmetic a chord is at least 2/π times as long as the shorter arc over it. So
members keep apart if the separation makes up for this, and large members of a small ring need not.
-/

namespace RingLayout

/-! ## Chords -/

theorem arc_mem_Ico (a b : ℝ) : arc a b ∈ Set.Ico 0 fullTurn := toIcoMod_mem_Ico' fullTurn_pos _

theorem cos_arc (a b : ℝ) : Real.cos (arc a b) = Real.cos (b - a) := by
  rw [arc, toIcoMod]
  exact Real.cos_periodic.sub_zsmul_eq _

theorem sin_half_arc_nonneg (a b : ℝ) : 0 ≤ Real.sin (arc a b / 2) := by
  obtain ⟨hnonneg, hlt⟩ := arc_mem_Ico a b
  rw [fullTurn] at hlt
  apply Real.sin_nonneg_of_nonneg_of_le_pi <;> linarith

theorem Point.distance_comm (p q : Point ℝ) : p.distance q = q.distance p := by
  rw [← sq_eq_sq₀ (distance_nonneg _ _) (distance_nonneg _ _), distance_sq, distance_sq]
  ring

/-- The length of the chord over an arc. -/
theorem Point.distance_onCircle (center : Point ℝ) {radius : ℝ} (hradius : 0 ≤ radius) (a b : ℝ) :
    (onCircle center radius a).distance (onCircle center radius b) =
      2 * radius * Real.sin (arc a b / 2) := by
  have hchord : 0 ≤ 2 * radius * Real.sin (arc a b / 2) :=
    mul_nonneg (mul_nonneg zero_le_two hradius) (sin_half_arc_nonneg a b)
  have hx : (onCircle center radius a).x - (onCircle center radius b).x =
      radius * (Real.cos a - Real.cos b) := by
    change (center.x + radius * Real.cos a) - (center.x + radius * Real.cos b) = _
    ring
  have hy : (onCircle center radius a).y - (onCircle center radius b).y =
      radius * (Real.sin a - Real.sin b) := by
    change (center.y + radius * Real.sin a) - (center.y + radius * Real.sin b) = _
    ring
  have hhalf : Real.sin (arc a b / 2) ^ 2 = 1 / 2 - Real.cos (b - a) / 2 := by
    rw [Real.sin_sq_eq_half_sub, mul_div_cancel₀ _ two_ne_zero, cos_arc]
  rw [← sq_eq_sq₀ (distance_nonneg _ _) hchord, distance_sq, hx, hy, mul_pow _ (Real.sin _) 2,
    hhalf, Real.cos_sub]
  linear_combination radius ^ 2 * (Real.sin_sq_add_cos_sq a + Real.sin_sq_add_cos_sq b)

/-- The sine of half an angle grows at least in proportion up to half a turn, and so it falls
after that. -/
theorem div_pi_le_sin_half {x y : ℝ} (hx : x ∈ Set.Ico 0 fullTurn) (hle : y ≤ x)
    (hle' : y ≤ fullTurn - x) : y / Real.pi ≤ Real.sin (x / 2) := by
  have hrise : ∀ z, 0 ≤ z → z ≤ Real.pi → z / Real.pi ≤ Real.sin (z / 2) := by
    intro z hz hz'
    have hsin := Real.mul_le_sin (x := z / 2) (by linarith) (by linarith)
    rwa [div_mul_div_comm, mul_comm 2 z, mul_div_mul_right _ _ two_ne_zero] at hsin
  rw [fullTurn] at hle'
  rcases le_total x Real.pi with hhalf | hhalf
  · exact (div_le_div_of_nonneg_right hle Real.pi_pos.le).trans (hrise x hx.1 hhalf)
  · have hfall : Real.sin (x / 2) = Real.sin ((2 * Real.pi - x) / 2) := by
      rw [← Real.sin_pi_sub]
      congr 1
      ring
    rw [hfall]
    refine (div_le_div_of_nonneg_right hle' Real.pi_pos.le).trans (hrise _ ?_ ?_)
    · have hlt := hx.2
      rw [fullTurn] at hlt
      linarith
    · linarith

/-! ## Boxes and the distances of their centers -/

namespace Box

/-- Two boxes meet if and only if their centers are close along both axes. -/
theorem intersects_iff_center (a b : Box ℝ) : a.intersects b = true ↔
    |a.center.x - b.center.x| < (a.width + b.width) / 2 ∧
      |a.center.y - b.center.y| < (a.height + b.height) / 2 := by
  have htwo : (2.0 : ℝ) = 2 := by norm_num
  simp only [intersects, Bool.and_eq_true, decide_eq_true_eq]
  simp only [center, centerX, centerY, right, bottom, htwo, abs_lt]
  constructor
  · rintro ⟨⟨⟨h1, h2⟩, h3⟩, h4⟩
    refine ⟨⟨?_, ?_⟩, ?_, ?_⟩ <;> linarith
  · rintro ⟨⟨h1, h2⟩, h3, h4⟩
    refine ⟨⟨⟨?_, ?_⟩, ?_⟩, ?_⟩ <;> linarith

variable {a b : Box ℝ}

/-- Boxes meet if their centers are closer together than half of all sides. -/
theorem intersects_of_distance_lt (hwidth : a.center.distance b.center < (a.width + b.width) / 2)
    (hheight : a.center.distance b.center < (a.height + b.height) / 2) :
    a.intersects b = true := by
  have hsq := Point.distance_sq a.center b.center
  have hnonneg := Point.distance_nonneg a.center b.center
  refine (intersects_iff_center a b).mpr ⟨lt_of_le_of_lt ?_ hwidth, lt_of_le_of_lt ?_ hheight⟩
  · exact abs_le_of_sq_le_sq (by linarith [sq_nonneg (a.center.y - b.center.y)]) hnonneg
  · exact abs_le_of_sq_le_sq (by linarith [sq_nonneg (a.center.x - b.center.x)]) hnonneg

/-- Equal squares meet if their centers are closer together than their sides are long. -/
theorem intersects_squares {side : ℝ} (ha : a.size = (side, side)) (hb : b.size = (side, side))
    (h : a.center.distance b.center < side) : a.intersects b = true := by
  obtain ⟨hwidth, hheight⟩ := Prod.mk.injEq .. ▸ ha
  obtain ⟨hwidth', hheight'⟩ := Prod.mk.injEq .. ▸ hb
  apply intersects_of_distance_lt
  · rwa [hwidth, hwidth', add_self_div_two]
  · rwa [hheight, hheight', add_self_div_two]

theorem diagonal_sq (b : Box ℝ) : b.diagonal ^ 2 = b.width ^ 2 + b.height ^ 2 := by
  have hdiagonal : b.diagonal = √(b.width * b.width + b.height * b.height) := rfl
  rw [hdiagonal, Real.sq_sqrt (add_nonneg (mul_self_nonneg _) (mul_self_nonneg _)), sq, sq]

/-- A box with the sides of two boxes added up has no longer diagonal than both together. -/
theorem sq_sides_le (a b : Box ℝ) :
    ((a.width + b.width) / 2) ^ 2 + ((a.height + b.height) / 2) ^ 2 ≤
      ((a.diagonal + b.diagonal) / 2) ^ 2 := by
  have ha : 0 ≤ a.diagonal := Real.sqrt_nonneg _
  have hb : 0 ≤ b.diagonal := Real.sqrt_nonneg _
  have hproduct : a.width * b.width + a.height * b.height ≤ a.diagonal * b.diagonal := by
    refine le_of_abs_le (abs_le_of_sq_le_sq ?_ (mul_nonneg ha hb))
    rw [mul_pow, diagonal_sq, diagonal_sq]
    linarith [sq_nonneg (a.width * b.height - a.height * b.width)]
  linarith [diagonal_sq a, diagonal_sq b]

theorem diagonal_square {side : ℝ} (hside : 0 ≤ side) (hb : b.size = (side, side)) :
    b.diagonal = √2 * side := by
  obtain ⟨hwidth, hheight⟩ := Prod.mk.injEq .. ▸ hb
  have hdiagonal : b.diagonal = √(b.width * b.width + b.height * b.height) := rfl
  rw [hdiagonal, hwidth, hheight, ← two_mul, Real.sqrt_mul zero_le_two,
    Real.sqrt_mul_self hside]

/-- Boxes do not meet if their centers are as far apart as half of both diagonals. -/
theorem intersects_eq_false_of_le_distance
    (h : (a.diagonal + b.diagonal) / 2 ≤ a.center.distance b.center) :
    a.intersects b = false := by
  rw [← Bool.not_eq_true, intersects_iff_center]
  rintro ⟨hx, hy⟩
  have hsides : a.center.distance b.center ^ 2 <
      ((a.width + b.width) / 2) ^ 2 + ((a.height + b.height) / 2) ^ 2 := by
    rw [Point.distance_sq]
    exact add_lt_add (sq_lt_sq' (abs_lt.mp hx).1 (abs_lt.mp hx).2)
      (sq_lt_sq' (abs_lt.mp hy).1 (abs_lt.mp hy).2)
  have hnonneg : 0 ≤ (a.diagonal + b.diagonal) / 2 :=
    div_nonneg (add_nonneg (Real.sqrt_nonneg _) (Real.sqrt_nonneg _)) zero_le_two
  have hdiagonals := pow_le_pow_left₀ hnonneg h 2
  linarith [sq_sides_le a b]

end Box

namespace Drawing

/-! ## Members of a ring -/

/-- Whichever way round, the arc between two members is at least half of both spans. -/
theorem turns_apart {radius : ℝ} (hradius : 0 < radius) {spans : List ℝ}
    (hpos : ∀ s ∈ spans, 0 < s) (hfill : radius * fullTurn = spans.sum) (first angle : ℝ)
    {i j : Nat} {s t x y : ℝ} (hij : i < j) (hs : spans[i]? = some s) (ht : spans[j]? = some t)
    (hx : (turns radius first angle spans)[i]? = some x)
    (hy : (turns radius first angle spans)[j]? = some y) :
    (s + t) / 2 ≤ radius * (y - x) ∧ (s + t) / 2 ≤ radius * (fullTurn - (y - x)) := by
  obtain ⟨hi, hsi⟩ := List.getElem?_eq_some_iff.mp hs
  obtain ⟨hj, htj⟩ := List.getElem?_eq_some_iff.mp ht
  have hpart : ∀ k l : Nat, k ≤ l → (spans.take k).sum ≤ (spans.take l).sum := fun k l hkl =>
    (List.take_sublist_take_left hkl).sum_le_sum fun a ha => (hpos a (List.mem_of_mem_take ha)).le
  -- the spans before the one member, between the two, and after the other
  have hbefore : 0 ≤ (spans.take i).sum := by simpa using hpart 0 i i.zero_le
  have hbetween : (spans.take i).sum + s ≤ (spans.take j).sum := by
    rw [← hsi, ← List.sum_take_succ _ _ hi]
    exact hpart _ _ hij
  have hafter : (spans.take j).sum + t ≤ radius * fullTurn := by
    rw [← htj, ← List.sum_take_succ _ _ hj, hfill]
    simpa using hpart _ _ hj
  cases spans with
  | nil => cases hs
  | cons u rest =>
      rw [getElem?_turns hradius, hs, Option.map_some, Option.some.injEq] at hx
      rw [getElem?_turns hradius, ht, Option.map_some, Option.some.injEq] at hy
      have hdifference : radius * (y - x) =
          ((u :: rest).take j).sum - ((u :: rest).take i).sum + (t - s) / 2 := by
        rw [← hx, ← hy]
        field_simp
        ring
      rw [mul_sub radius fullTurn, hdifference]
      constructor <;> linarith

variable {members : Nat → List Nat} {d : Drawing ℝ} {c : Nat} {separation : ℝ}

/-- Two members on a circle are a chord apart. -/
theorem OnCircle.distance_members (h : OnCircle d c) (hradius : 0 ≤ (d.ring c).radius) {u v : Nat}
    (hu : u ∈ (d.ring c).order) (hv : v ∈ (d.ring c).order) :
    (d.body u).center.distance (d.body v).center =
      2 * (d.ring c).radius * Real.sin (arc (d.angleOf u) (d.angleOf v) / 2) := by
  rw [h u hu, h v hv, Point.distance_onCircle _ hradius]

theorem radius_spread_nonneg (hseparation : 0 < separation) {v : Nat}
    (hv : v ∈ (d.ring c).order) : 0 ≤ ((d.spread c separation).ring c).radius := by
  rw [radius_spread d hv]
  by_cases htwo : 2 ≤ (d.ring c).order.length
  · exact (spreadRadius_pos hseparation htwo).le
  · have htail : (d.ring c).order.tail.isEmpty = true := by
      rw [List.isEmpty_iff_length_eq_zero, List.length_tail]
      omega
    rw [spreadRadius, if_pos htail]
    norm_num

/-- Two members that are laid out are at least half of both spans apart along the circle, and so
at least the 2/π-th part of that in the plane. -/
theorem le_distance_spread (hd : d.skeleton.Sound members) (hseparation : 0 < separation)
    {i j u v : Nat} (hij : i < j) (hu : (d.ring c).order[i]? = some u)
    (hv : (d.ring c).order[j]? = some v) :
    (((d.spread c separation).body u).box.diagonal + separation +
        (((d.spread c separation).body v).box.diagonal + separation)) / Real.pi ≤
      ((d.spread c separation).body u).center.distance
        ((d.spread c separation).body v).center := by
  obtain ⟨x, hx, hux, hs⟩ := exists_dealt hd hu separation
  obtain ⟨y, hy, hvy, ht⟩ := exists_dealt hd hv separation
  have hmemu := List.mem_of_getElem? hu
  have hmemv := List.mem_of_getElem? hv
  have htwo : 2 ≤ (d.ring c).order.length := by
    have hj := (List.getElem?_eq_some_iff.mp hv).1
    omega
  have hradius := spreadRadius_pos hseparation htwo
  have hspans := pos_of_mem_spans (d := d) (c := c) hseparation
  obtain ⟨hahead, hback⟩ :=
    turns_apart hradius hspans (spreadRadius_fills htwo) _ _ hij hs ht hx hy
  rw [← div_le_iff₀' hradius] at hahead hback
  have hroom := div_pos (half_pos (add_pos (hspans _ (List.mem_of_getElem? hs))
    (hspans _ (List.mem_of_getElem? ht)))) hradius
  have harc : arc x y = y - x := arc_eq_sub ⟨by linarith, by linarith⟩
  have hmem : y - x ∈ Set.Ico 0 fullTurn := harc ▸ arc_mem_Ico x y
  rw [(onCircle_spread hd c separation).distance_members (radius_spread_nonneg hseparation hmemu)
      (order_spread hd c separation ▸ hmemu) (order_spread hd c separation ▸ hmemv),
    radius_spread d hmemu, hux, hvy, arc_normalizeAngle, harc]
  have hsin := div_pi_le_sin_half hmem hahead hback
  calc _ = 2 * d.spreadRadius c separation * _ := ?_
    _ ≤ 2 * d.spreadRadius c separation * Real.sin ((y - x) / 2) :=
      mul_le_mul_of_nonneg_left hsin (by linarith)
  field_simp

/-- Two members are never farther apart than the diameter, and if they are the only ones of their
ring, then their spans make up its circumference. -/
theorem distance_pair_le (hd : d.skeleton.Sound members) (hseparation : 0 < separation)
    (htwo : (d.ring c).order.length = 2) {u v : Nat} (hu : u ∈ (d.ring c).order)
    (hv : v ∈ (d.ring c).order) (hne : u ≠ v) :
    ((d.spread c separation).body u).center.distance ((d.spread c separation).body v).center ≤
      (((d.spread c separation).body u).box.diagonal + separation +
        (((d.spread c separation).body v).box.diagonal + separation)) / Real.pi := by
  have hradius := spreadRadius_pos (d := d) (c := c) hseparation htwo.ge
  have hfill : d.spreadRadius c separation * fullTurn = (d.spans c separation).sum :=
    spreadRadius_fills htwo.ge
  have hsum : (d.spans c separation).sum =
      (d.body u).box.diagonal + separation + ((d.body v).box.diagonal + separation) := by
    obtain ⟨a, b, hab⟩ := List.length_eq_two.mp htwo
    rw [hab, List.mem_pair] at hu hv
    rw [spans, hab]
    rcases hu with rfl | rfl <;> rcases hv with rfl | rfl
    · exact absurd rfl hne
    · simp
    · simp [add_comm]
    · exact absurd rfl hne
  rw [hsum, fullTurn] at hfill
  rw [(onCircle_spread hd c separation).distance_members (radius_spread_nonneg hseparation hu)
      (order_spread hd c separation ▸ hu) (order_spread hd c separation ▸ hv),
    radius_spread d hu, diagonal_spread hd hu, diagonal_spread hd hv, ← hfill]
  calc _ ≤ 2 * d.spreadRadius c separation * 1 :=
        mul_le_mul_of_nonneg_left (Real.sin_le_one _) (by linarith)
    _ = _ := by field_simp

/-- What the distances of the members of a ring are once it has been laid out. -/
structure Spaced (d : Drawing ℝ) (c : Nat) (separation : ℝ) : Prop where
  /-- Two members are a chord apart. -/
  distance_eq : ∀ u ∈ (d.ring c).order, ∀ v ∈ (d.ring c).order,
    (d.body u).center.distance (d.body v).center =
      2 * (d.ring c).radius * Real.sin (arc (d.angleOf u) (d.angleOf v) / 2)
  /-- This is at least the 2/π-th part of half of both spans. -/
  le_distance : ∀ u ∈ (d.ring c).order, ∀ v ∈ (d.ring c).order, u ≠ v →
    ((d.body u).box.diagonal + separation + ((d.body v).box.diagonal + separation)) / Real.pi ≤
      (d.body u).center.distance (d.body v).center
  /-- It is no more for two members that are alone on their ring. -/
  pair_eq : (d.ring c).order.length = 2 →
    ∀ u ∈ (d.ring c).order, ∀ v ∈ (d.ring c).order, u ≠ v →
      (d.body u).center.distance (d.body v).center =
        ((d.body u).box.diagonal + separation + ((d.body v).box.diagonal + separation)) / Real.pi
  /-- Two members do not meet if the separation makes up for what chords are shorter than arcs. -/
  not_intersects : ∀ u ∈ (d.ring c).order, ∀ v ∈ (d.ring c).order, u ≠ v →
    (Real.pi / 2 - 1) * (((d.body u).box.diagonal + (d.body v).box.diagonal) / 2) ≤ separation →
      (d.body u).box.intersects (d.body v).box = false

theorem spaced_spread (hd : d.skeleton.Sound members) (hseparation : 0 < separation) (c : Nat) :
    Spaced (d.spread c separation) c separation := by
  have hle : ∀ u ∈ (d.ring c).order, ∀ v ∈ (d.ring c).order, u ≠ v →
      (((d.spread c separation).body u).box.diagonal + separation +
          (((d.spread c separation).body v).box.diagonal + separation)) / Real.pi ≤
        ((d.spread c separation).body u).center.distance
          ((d.spread c separation).body v).center := by
    intro u hu v hv hne
    obtain ⟨i, hi⟩ := List.mem_iff_getElem?.mp hu
    obtain ⟨j, hj⟩ := List.mem_iff_getElem?.mp hv
    rcases Nat.lt_trichotomy i j with hij | rfl | hij
    · exact le_distance_spread hd hseparation hij hi hj
    · exact absurd (Option.some.inj (hi.symm.trans hj)) hne
    · rw [Point.distance_comm, add_comm (_ + _)]
      exact le_distance_spread hd hseparation hij hj hi
  constructor
  case distance_eq =>
    intro u hu v hv
    refine (onCircle_spread hd c separation).distance_members ?_ hu hv
    exact radius_spread_nonneg hseparation (order_spread hd c separation ▸ hu)
  case le_distance =>
    rw [order_spread hd]
    exact hle
  case pair_eq =>
    rw [order_spread hd]
    intro htwo u hu v hv hne
    exact le_antisymm (distance_pair_le hd hseparation htwo hu hv hne) (hle u hu v hv hne)
  case not_intersects =>
    rw [order_spread hd]
    intro u hu v hv hne hroom
    apply Box.intersects_eq_false_of_le_distance
    refine le_trans ?_ (hle u hu v hv hne)
    rw [le_div_iff₀ Real.pi_pos]
    linarith

theorem order_arrangeRing_perm (hd : d.skeleton.Sound members) (c : Nat) (separation : ℝ) :
    ((Run.arrangeRing d c separation).ring c).order.Perm (d.ring c).order := by
  rw [(Run.arrangeRing d c separation).order_eq, skeleton_arrangeRing hd.seated,
    Skeleton.ring_reorder, if_pos rfl]
  exact d.arrangedOrder_perm c

theorem spaced_arrangeRing (hd : d.skeleton.Sound members) (hseparation : 0 < separation)
    (c : Nat) : Spaced (Run.arrangeRing d c separation) c separation := by
  rw [arrangeRing_eq]
  exact spaced_spread (sound_arranged hd c) hseparation c

/-- Whatever has been done to a drawing, the members of a ring that is laid out then are spaced by
their spans. -/
theorem spaced_layOut {g : Graph ℝ} {o : Options ℝ} {start : Drawing ℝ}
    (h : build g o = .ok start) {ops : List (Operation ℝ)} (hfits : ∀ op ∈ ops, op.Fits start)
    {separation : ℝ} (hseparation : 0 < separation) (c : Nat) :
    Spaced ((Operation.run ops start).spread c separation) c separation ∧
      Spaced (Run.arrangeRing (Operation.run ops start) c separation) c separation := by
  have hmotions : Motions (fun _ => True) start (Operation.run ops start) :=
    Operation.motions_run (sound_build h) hfits fun _ _ _ _ => trivial
  have hd := hmotions.sound (sound_build h)
  exact ⟨spaced_spread hd hseparation c, spaced_arrangeRing hd hseparation c⟩

/-- Two large nodes. -/
noncomputable def hugePair : Graph ℝ where
  nodes := [⟨"a", 1000, 1000, none, none, false⟩, ⟨"b", 1000, 1000, none, none, false⟩]
  edges := []

theorem build_hugePair : build hugePair pairRing = .ok (ofClusters hugePair pairRing [[0, 1]]) :=
  rfl

/-- The two keep their sizes when their ring is arranged. -/
theorem size_arrangeRing_hugePair (separation : ℝ) {v : Nat} (hv : v ∈ [0, 1]) :
    ((Run.arrangeRing (ofClusters hugePair pairRing [[0, 1]]) 0 separation).body v).box.size =
      (1000, 1000) := by
  have hside : Scalar.maxNum (1000 : ℝ) 1.0 = 1000 := by
    rw [Scalar.maxNum_real]
    norm_num
  have hmotion : RingMotion (fun _ => True) 0 (ofClusters hugePair pairRing [[0, 1]]) _ :=
    .arrange separation trivial
  rcases hmotion.resizes (sound_build build_hugePair) v with hsame | ⟨hhub, -⟩
  · rw [hsame]
    rcases List.mem_pair.mp hv with rfl | rfl <;> exact congrArg₂ Prod.mk hside hside
  · have hhubs : (ofClusters hugePair pairRing [[0, 1]]).skeleton.plan.hubs = [2] := rfl
    rw [hhubs, List.mem_singleton] at hhub
    rw [hhub] at hv
    simp at hv

/-- With room enough between them the two keep apart. -/
theorem spaced_layOut_hugePair : ∃ start : Drawing ℝ, build hugePair pairRing = .ok start ∧
    Spaced (Run.arrangeRing (Operation.run [.rotate 0 1] start) 0 1000) 0 1000 := by
  have hfits : ∀ op ∈ [Operation.rotate 0 1], op.Fits (ofClusters hugePair pairRing [[0, 1]]) := by
    simp [Operation.Fits]
  exact ⟨_, build_hugePair, (spaced_layOut build_hugePair hfits (by norm_num) 0).2⟩

/-- But their spans may be too short for them: two members on opposite sides of their ring meet if
they are large and the separation is not. -/
theorem intersects_arrangeRing_hugePair : ¬∀ (g : Graph ℝ) (o : Options ℝ) (d : Drawing ℝ)
    (separation : ℝ) (c : Nat), build g o = .ok d →
      (∀ n ∈ g.nodes, 0 < n.width ∧ 0 < n.height) → 0 < separation →
        ∀ u ∈ ((Run.arrangeRing d c separation).ring c).order,
          ∀ v ∈ ((Run.arrangeRing d c separation).ring c).order, u ≠ v →
            ((Run.arrangeRing d c separation).body u).box.intersects
              ((Run.arrangeRing d c separation).body v).box = false := by
  intro hall
  have hhuge : ∀ n ∈ hugePair.nodes, 0 < n.width ∧ 0 < n.height := by simp [hugePair]
  have hdisjoint := hall _ _ _ 12.5 0 build_hugePair hhuge (by norm_num)
  have hspaced := spaced_arrangeRing (sound_build build_hugePair)
    (by norm_num : (0 : ℝ) < 12.5) 0
  have hperm := order_arrangeRing_perm (sound_build build_hugePair) 0 12.5
  have hfirst := hperm.mem_iff.mpr (List.mem_cons_self (a := 0) (l := [1]))
  have hsecond := hperm.mem_iff.mpr (List.mem_cons_of_mem 0 (List.mem_singleton_self 1))
  have hdistance := hspaced.pair_eq hperm.length_eq 0 hfirst 1 hsecond Nat.zero_ne_one
  have hsize := fun v hv => size_arrangeRing_hugePair 12.5 (v := v) hv
  -- the centers are less than a side apart, as 2 * (√2 * 1000 + 12.5) < 1000 * π
  refine absurd (Box.intersects_squares (hsize 0 (by simp)) (hsize 1 (by simp)) ?_) ?_
  · refine hdistance.trans_lt ?_
    rw [Box.diagonal_square (by norm_num) (hsize 0 (by simp)),
      Box.diagonal_square (by norm_num) (hsize 1 (by simp)), div_lt_iff₀ Real.pi_pos]
    linarith [Real.pi_gt_d2, Real.sqrt_two_lt_three_halves]
  · rw [hdisjoint 0 hfirst 1 hsecond Nat.zero_ne_one]
    exact Bool.false_ne_true

end Drawing

end RingLayout
