import RingLayout.Proofs.Angles
import RingLayout.Proofs.Angles.Members

/-! # Laying out a ring

In exact arithmetic the spans of the members fill the circle of a ring that is laid out: each member
is half its span away from the ends of its arc, and after one turn the last arc ends where the
first begins.
-/

namespace RingLayout.Drawing

/-! ## Dealing out angles -/

section Turns

variable {radius : ℝ} (hradius : 0 < radius)
include hradius

theorem turns_cons_cons (first angle s t : ℝ) (rest : List ℝ) :
    turns radius first angle (s :: t :: rest) =
      angle :: turns radius first (angle + (s + t) / 2 / radius) (t :: rest) := by
  have hzero : (0.0 : ℝ) = 0 := by norm_num
  have htwo : (2.0 : ℝ) = 2 := by norm_num
  have hstep : (if (0.0 : ℝ) < radius then angle + (s / 2.0 + t / 2.0) / radius else angle) =
      angle + (s + t) / 2 / radius := by
    rw [if_pos (hzero ▸ hradius), htwo, add_div s t]
  exact congrArg (fun next => angle :: turns radius first next (t :: rest)) hstep

/-- A member is one arc for each member before it away from the first, and half of its own, less
half of that of the first. -/
theorem getElem?_turns (first angle s : ℝ) (rest : List ℝ) (i : Nat) :
    (turns radius first angle (s :: rest))[i]? =
      (s :: rest)[i]?.map fun t =>
        angle + (((s :: rest).take i).sum + (t - s) / 2) / radius := by
  induction i generalizing angle s rest with
  | zero => simp [turns]
  | succ i ih =>
      cases rest with
      | nil => simp [turns]
      | cons t rest =>
          rw [turns_cons_cons hradius, List.getElem?_cons_succ, ih, List.getElem?_cons_succ,
            List.take_succ_cons, List.sum_cons]
          refine congrArg (Option.map · _) (funext fun u => ?_)
          field_simp
          ring

variable {spans : List ℝ}

/-- From each member to the next, the angle grows by half of both spans. -/
theorem turns_next (first angle : ℝ) {i : Nat} {s t x y : ℝ} (hs : spans[i]? = some s)
    (ht : spans[i + 1]? = some t) (hx : (turns radius first angle spans)[i]? = some x)
    (hy : (turns radius first angle spans)[i + 1]? = some y) :
    radius * (y - x) = (s + t) / 2 := by
  obtain ⟨hi, hsi⟩ := List.getElem?_eq_some_iff.mp hs
  have hsum := List.sum_take_succ spans i hi
  cases spans with
  | nil => cases hs
  | cons u rest =>
      rw [getElem?_turns hradius, hs, Option.map_some, Option.some.injEq] at hx
      rw [getElem?_turns hradius, ht, Option.map_some, Option.some.injEq] at hy
      rw [← hx, ← hy, hsum, hsi]
      field_simp
      ring

/-- Where the spans fill the circle, this is so from the last member to the first, after a turn. -/
theorem turns_last (hfill : radius * fullTurn = spans.sum) (first angle : ℝ) {i : Nat}
    {s t x y : ℝ} (hlast : i + 1 = spans.length) (hs : spans[i]? = some s)
    (ht : spans[0]? = some t) (hx : (turns radius first angle spans)[i]? = some x)
    (hy : (turns radius first angle spans)[0]? = some y) :
    radius * (y + fullTurn - x) = (s + t) / 2 := by
  obtain ⟨hi, hsi⟩ := List.getElem?_eq_some_iff.mp hs
  have hsum := List.sum_take_succ spans i hi
  rw [hlast, List.take_length, ← hfill, hsi] at hsum
  cases spans with
  | nil => cases hs
  | cons u rest =>
      obtain rfl : u = t := Option.some.inj ht
      rw [getElem?_turns hradius, hs, Option.map_some, Option.some.injEq] at hx
      rw [getElem?_turns hradius, ht, Option.map_some, Option.some.injEq] at hy
      rw [← hx, ← hy, List.take_zero, List.sum_nil]
      field_simp
      linarith

variable (hpos : ∀ s ∈ spans, 0 < s)
include hpos

theorem pairwise_turns (first angle : ℝ) :
    (turns radius first angle spans).Pairwise (· < ·) ∧
      ∀ x ∈ turns radius first angle spans, angle ≤ x := by
  induction spans generalizing angle with
  | nil => simp [turns]
  | cons s rest ih =>
      obtain ⟨hs, hrest⟩ := List.forall_mem_cons.mp hpos
      cases rest with
      | nil => simp [turns]
      | cons t rest =>
          obtain ⟨hlt, hle⟩ := ih hrest (angle + (s + t) / 2 / radius)
          have hstep : 0 < (s + t) / 2 / radius :=
            div_pos (half_pos (add_pos hs (hrest t List.mem_cons_self))) hradius
          rw [turns_cons_cons hradius]
          refine ⟨List.pairwise_cons.mpr ⟨fun x hx => ?_, hlt⟩, ?_⟩
          · linarith [hle x hx]
          · exact List.forall_mem_cons.mpr ⟨le_rfl, fun x hx => by linarith [hle x hx]⟩

variable (hfill : radius * fullTurn = spans.sum)
include hfill

/-- Spans that fill the circle are used up before a full turn. -/
theorem lt_of_mem_turns (first angle : ℝ) :
    ∀ x ∈ turns radius first angle spans, x < angle + fullTurn := by
  intro x hx
  obtain ⟨i, hi, rfl⟩ := List.mem_iff_getElem.mp hx
  cases spans with
  | nil => simp [turns] at hi
  | cons s rest =>
      have hlt : i < (s :: rest).length := length_turns radius first angle (s :: rest) ▸ hi
      have heq := getElem?_turns hradius first angle s rest i
      rw [List.getElem?_eq_getElem hi, List.getElem?_eq_getElem hlt, Option.map_some,
        Option.some.injEq] at heq
      have hsum := List.sum_take_add_sum_drop (s :: rest) (i + 1)
      rw [List.sum_take_succ _ _ hlt, ← hfill] at hsum
      have hdrop : 0 ≤ ((s :: rest).drop (i + 1)).sum :=
        List.sum_nonneg fun t ht => (hpos t (List.mem_of_mem_drop ht)).le
      have hs := hpos s List.mem_cons_self
      have hi := hpos _ (List.getElem_mem hlt)
      rw [heq, add_lt_add_iff_left, div_lt_iff₀ hradius]
      linarith

theorem inTurn_turns (first angle : ℝ) :
    InTurn ((turns radius first angle spans).map normalizeAngle) := by
  obtain ⟨hlt, hle⟩ := pairwise_turns hradius hpos first angle
  exact ⟨angle, _, hlt, fun x hx =>
    ⟨hle x hx, lt_of_mem_turns hradius hpos hfill first angle x hx⟩, rfl⟩

/-- From each member to the next one, and from the last to the first, the arc is half of both
spans. -/
theorem arc_turns (first angle : ℝ) {i j : Nat} {s t x y : ℝ} (htwo : 2 ≤ spans.length)
    (hj : j = (i + 1) % spans.length) (hs : spans[i]? = some s) (ht : spans[j]? = some t)
    (hx : (turns radius first angle spans)[i]? = some x)
    (hy : (turns radius first angle spans)[j]? = some y) :
    radius * arc x y = (s + t) / 2 := by
  obtain ⟨hlt, hle⟩ := pairwise_turns hradius hpos first angle
  have hturn := lt_of_mem_turns hradius hpos hfill first angle
  -- the next member, without normalization, is half of both spans on
  have hnext : ∀ z, radius * (z - x) = (s + t) / 2 → z < x + fullTurn → arc x y = arc x z →
      radius * arc x y = (s + t) / 2 := by
    intro z hz hzx harc
    have hxz : 0 < z - x := by
      refine pos_of_mul_pos_right ?_ hradius.le
      rw [hz]
      exact half_pos (add_pos (hpos s (List.mem_of_getElem? hs)) (hpos t (List.mem_of_getElem? ht)))
    rw [harc, arc_eq_sub ⟨by linarith, hzx⟩, hz]
  obtain ⟨hi, -⟩ := List.getElem?_eq_some_iff.mp hs
  by_cases hend : i + 1 < spans.length
  · rw [Nat.mod_eq_of_lt hend] at hj
    subst hj
    refine hnext y (turns_next hradius first angle hs ht hx hy) ?_ rfl
    linarith [hle x (List.mem_of_getElem? hx), hturn y (List.mem_of_getElem? hy)]
  · have hlast : i + 1 = spans.length := by omega
    rw [hlast, Nat.mod_self] at hj
    subst hj
    have hyx : y < x := by
      obtain ⟨hi', rfl⟩ := List.getElem?_eq_some_iff.mp hx
      obtain ⟨h0, rfl⟩ := List.getElem?_eq_some_iff.mp hy
      exact List.pairwise_iff_getElem.mp hlt 0 i h0 hi' (by omega)
    refine hnext (y + fullTurn) (turns_last hradius hfill first angle hlast hs ht hx hy) ?_ ?_
    · linarith
    · exact (arc_add_fullTurn x y).symm

end Turns

/-! ## A ring that is laid out -/

/-- The arcs between neighbours on a ring are half of the spans of both. -/
structure Filled (d : Drawing ℝ) (c : Nat) (separation : ℝ) : Prop where
  arc_eq : ∀ i u v, (d.ring c).order[i]? = some u →
    (d.ring c).order[CyclicOrder.next (d.ring c).order i]? = some v →
      (d.ring c).radius * arc (d.angleOf u) (d.angleOf v) =
        ((d.body u).box.diagonal + separation + ((d.body v).box.diagonal + separation)) / 2

/-- The angles dealt out to the members in their order, before they are normalized. -/
noncomputable def dealt (d : Drawing ℝ) (c : Nat) (separation : ℝ) : List ℝ :=
  turns (d.spreadRadius c separation) ((d.spans c separation).headD 0.0)
    (d.angleOf ((d.ring c).order.headD 0)) (d.spans c separation)

variable {members : Nat → List Nat} {d : Drawing ℝ} {c : Nat} {separation : ℝ}

theorem pos_of_mem_spans (hseparation : 0 < separation) :
    ∀ s ∈ d.spans c separation, 0 < s := by
  intro s hs
  obtain ⟨v, -, rfl⟩ := List.mem_map.mp hs
  exact add_pos_of_nonneg_of_pos (Real.sqrt_nonneg _) hseparation

/-- The radius at which the spans are the circumference. -/
theorem spreadRadius_fills (htwo : 2 ≤ (d.ring c).order.length) :
    d.spreadRadius c separation * fullTurn = (d.spans c separation).sum := by
  rw [spreadRadius, if_neg, Scalar.sum_real]
  · exact div_mul_cancel₀ _ fullTurn_pos.ne'
  · rw [List.isEmpty_iff_length_eq_zero, List.length_tail]
    omega

theorem spreadRadius_pos (hseparation : 0 < separation) (htwo : 2 ≤ (d.ring c).order.length) :
    0 < d.spreadRadius c separation := by
  refine pos_of_mul_pos_left ?_ fullTurn_pos.le
  rw [spreadRadius_fills htwo]
  refine List.sum_pos _ (pos_of_mem_spans hseparation) (List.ne_nil_of_length_pos ?_)
  rw [spans, List.length_map]
  omega

variable (hd : d.skeleton.Sound members) (hseparation : 0 < separation)
include hd hseparation

/-- A ring that is laid out has its members in turn. -/
theorem inTurn_spread (c : Nat) : InTurn ((d.spread c separation).angles c) := by
  rw [angles_spread hd]
  by_cases htwo : 2 ≤ (d.ring c).order.length
  · exact inTurn_turns (spreadRadius_pos hseparation htwo) (pos_of_mem_spans hseparation)
      (spreadRadius_fills htwo) _ _
  · have hspans : (d.spans c separation).length < 2 := by
      rw [spans, List.length_map]
      omega
    match d.spans c separation, hspans with
    | [], _ => exact (InTurn.single 0).sublist (List.nil_sublist _)
    | [s], _ => exact .single _

omit hseparation in
/-- A member takes the angle that its span asks for, and its span is what it was before. -/
theorem exists_dealt {k w : Nat} (hw : (d.ring c).order[k]? = some w) (separation : ℝ) :
    ∃ x, (d.dealt c separation)[k]? = some x ∧
      (d.spread c separation).angleOf w = normalizeAngle x ∧
      (d.spans c separation)[k]? =
        some (((d.spread c separation).body w).box.diagonal + separation) := by
  have hk := congrArg (·[k]?) (angles_spread hd c separation)
  simp only [Drawing.angles, List.getElem?_map, order_spread hd, hw, Option.map_some] at hk
  obtain ⟨x, hx, hnormal⟩ := Option.map_eq_some_iff.mp hk.symm
  refine ⟨x, hx, hnormal.symm, ?_⟩
  rw [spans, List.getElem?_map, hw, Option.map_some, diagonal_spread hd (List.mem_of_getElem? hw)]

/-- A ring that is laid out is filled by the spans of its members. -/
theorem filled_spread (htwo : 2 ≤ (d.ring c).order.length) :
    Filled (d.spread c separation) c separation := by
  constructor
  intro i u v hu hv
  rw [order_spread hd] at hu hv
  obtain ⟨x, hx, hux, hs⟩ := exists_dealt hd hu separation
  obtain ⟨y, hy, hvy, ht⟩ := exists_dealt hd hv separation
  have hlength : (d.spans c separation).length = (d.ring c).order.length := List.length_map _
  rw [radius_spread d (List.mem_of_getElem? hu), hux, hvy, arc_normalizeAngle]
  refine arc_turns (spreadRadius_pos hseparation htwo) (pos_of_mem_spans hseparation)
    (spreadRadius_fills htwo) _ _ (hlength ▸ htwo) ?_ hs ht hx hy
  rw [hlength, CyclicOrder.next, max_eq_left (by omega)]

theorem filled_arrangeRing (htwo : 2 ≤ (d.ring c).order.length) :
    Filled (Run.arrangeRing d c separation) c separation := by
  rw [arrangeRing_eq]
  apply filled_spread (sound_arranged hd c) hseparation
  rwa [order_arranged, (d.arrangedOrder_perm c).length_eq]

omit hseparation in
/-- The first member keeps its angle. -/
theorem angle_first_spread {first : Nat} (hfirst : (d.ring c).order.head? = some first)
    (hrange : d.angleOf first ∈ Set.Ico 0 fullTurn) (separation : ℝ) :
    (d.spread c separation).angleOf first = d.angleOf first := by
  obtain ⟨rest, hrest⟩ := List.head?_eq_some_iff.mp hfirst
  have hangles := angles_spread hd c separation
  rw [angles, order_spread hd, spans, hrest] at hangles
  have hhead := (List.cons.inj hangles).1
  rw [hhead]
  exact normalizeAngle_eq_self hrange

end RingLayout.Drawing
