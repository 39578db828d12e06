import RingLayout.Proofs.Extents

/-! # Packing the parts

Packing lines the parts of a drawing up from left to right, each as a whole. The cursor that says
where the next part goes runs through the exact widths of the parts before it, so that a part that
is left where it is, since it is near enough, brings the others no nearer.
-/

namespace RingLayout

namespace Box

theorem translate_zero (b : Box ℝ) : b.translate ⟨0, 0⟩ = b := by
  simp [translate]

theorem translate_translate (b : Box ℝ) (x y : ℝ) :
    (b.translate ⟨x, 0⟩).translate ⟨y, 0⟩ = b.translate ⟨x + y, 0⟩ := by
  simp [translate, add_assoc]

end Box

namespace Drawing

variable {members : Nat → List Nat} {d d' d'' : Drawing ℝ}

/-! ## Sliding roots -/

theorem representative_congr {d d' : Drawing ℝ} (h : d'.skeleton = d.skeleton) (u : Nat) :
    d'.representative u = d.representative u := by
  rw [← representative_wiring, h, representative_wiring]

/-- Bodies have moved along the horizontal axis, each as far as its root. -/
structure Slides (shift : Nat → ℝ) (d d' : Drawing ℝ) : Prop where
  skeleton_eq : d'.skeleton = d.skeleton
  rest_eq : { d' with bodies := d.bodies } = d
  body_eq : ∀ u, d'.body u = (d.body u).translate ⟨shift (d.representative u), 0⟩

namespace Slides

theorem refl (d : Drawing ℝ) : Slides (fun _ => 0) d d :=
  ⟨rfl, rfl, fun u => by rw [Body.translate, Box.translate_zero]⟩

theorem trans {shift shift' : Nat → ℝ} (h : Slides shift d d') (h' : Slides shift' d' d'') :
    Slides (fun r => shift r + shift' r) d d'' where
  skeleton_eq := h'.skeleton_eq.trans h.skeleton_eq
  rest_eq := (congrArg (fun e => { e with bodies := d.bodies }) h'.rest_eq).trans h.rest_eq
  body_eq u := by
    rw [h'.body_eq, h.body_eq, representative_congr h.skeleton_eq, Body.translate, Body.translate,
      Body.translate, Box.translate_translate]

theorem congr {shift shift' : Nat → ℝ} (h : Slides shift d d') (heq : ∀ r, shift r = shift' r) :
    Slides shift' d d' :=
  (funext heq : shift = shift') ▸ h

/-- The extent of roots that move equally far moves with them. -/
theorem rootsExtent? {shift : Nat → ℝ} (h : Slides shift d d') (hd : d.skeleton.Sound members)
    {roots : List Nat} (hroots : roots ⊆ d.roots) {dx : ℝ} (hshift : ∀ r ∈ roots, shift r = dx) :
    d'.rootsExtent? roots = (d.rootsExtent? roots).map (·.shift dx) := by
  have hboxes : ∀ r ∈ roots, d'.boxesAt r = (d.boxesAt r).map (·.translate ⟨dx, 0⟩) := by
    intro r hr
    have htroop : d'.troop r = d.troop r := by
      have hring : ∀ c, d'.ring c = d.ring c := fun c => by
        rw [← h.rest_eq]
        rfl
      simp only [troop, hring, h.body_eq, Body.translate]
    rw [boxesAt_eq, boxesAt_eq, htroop, List.map_map]
    refine List.map_congr_left fun u hu => ?_
    rw [mem_troop_iff hd (hroots hr)] at hu
    rw [h.body_eq, hu, hshift r hr]
    rfl
  rw [Drawing.rootsExtent?, Drawing.rootsExtent?, ← Extent.cover?_map_translate, List.map_flatMap]
  exact congrArg Extent.cover? (List.flatMap_congr hboxes)

end Slides

/-- A root that is translated slides with what it stands for, and nothing else does. -/
theorem slides_translateRoot (hd : d.skeleton.Sound members) {r : Nat} (hr : r ∈ d.roots)
    (dx : ℝ) : Slides (fun s => if s = r then dx else 0) d (translateRoot ⟨dx, 0⟩ d r) := by
  constructor
  case skeleton_eq => exact skeleton_translateRoot _ d r
  case rest_eq =>
    let rest (e : Drawing ℝ) : Drawing ℝ := { e with bodies := d.bodies }
    have hmove : ∀ (l : List Nat) (e : Drawing ℝ),
        rest (l.foldl (fun e v => e.translateBody v ⟨dx, 0⟩) e) = rest e :=
      foldl_eq_of_step_eq rest fun _ _ => rfl
    change rest (translateRoot ⟨dx, 0⟩ d r) = d
    unfold translateRoot translateRing
    split
    · dsimp only
      rw [hmove, hmove]
      rfl
    · rfl
  case body_eq =>
    intro u
    rw [body_translateRoot hd hr]
    split
    next => rfl
    next => rw [Body.translate, Box.translate_zero]

theorem slides_translateRoots (hd : d.skeleton.Sound members) {roots : List Nat}
    (hroots : roots ⊆ d.roots) (hnodup : roots.Nodup) (dx : ℝ) :
    Slides (fun r => if r ∈ roots then dx else 0) d
      (roots.foldl (translateRoot ⟨dx, 0⟩) d) := by
  induction roots generalizing d with
  | nil => exact (Slides.refl d).congr fun r => by simp
  | cons r rest ih =>
      obtain ⟨hr, hrest⟩ := List.cons_subset.mp hroots
      obtain ⟨hnot, hnodup⟩ := List.nodup_cons.mp hnodup
      have hfirst := slides_translateRoot hd hr dx
      have hroots' : (translateRoot ⟨dx, 0⟩ d r).roots = d.roots :=
        congrArg Skeleton.roots hfirst.skeleton_eq
      refine (hfirst.trans (ih (hfirst.skeleton_eq.symm ▸ hd) (hroots' ▸ hrest) hnodup)).congr ?_
      intro s
      by_cases hs : s = r
      · subst hs
        simp [hnot]
      · simp [hs]

/-! ## Components in a line -/

/-- How far a component moves to get its left edge to a cursor; near enough to it, it stays. -/
noncomputable def pull (cursor : ℝ) (e : Extent ℝ) : ℝ :=
  if 1e-6 < Scalar.abs (cursor - e.minX) then cursor - e.minX else 0

/-- How far a root moves with its component when components are lined up. -/
noncomputable def shiftOf (spacing : ℝ) : ℝ → List (Extent ℝ × List Nat) → Nat → ℝ
  | _, [], _ => 0
  | cursor, (e, roots) :: rest, r =>
    (if r ∈ roots then pull cursor e else 0) + shiftOf spacing (cursor + (e.width + spacing)) rest r

/-- The components after they have been lined up. -/
noncomputable def lined (spacing : ℝ) :
    ℝ → List (Extent ℝ × List Nat) → List (Extent ℝ × List Nat)
  | _, [] => []
  | cursor, (e, roots) :: rest =>
    (e.shift (pull cursor e), roots) :: lined spacing (cursor + (e.width + spacing)) rest

theorem slides_lineUp (hd : d.skeleton.Sound members) {spacing cursor : ℝ}
    {items : List (Extent ℝ × List Nat)} (hsubset : ∀ p ∈ items, p.2 ⊆ d.roots)
    (hnodup : ∀ p ∈ items, p.2.Nodup) :
    Slides (shiftOf spacing cursor items) d (lineUp spacing cursor items d) := by
  induction items generalizing cursor d with
  | nil => exact Slides.refl d
  | cons item rest ih =>
      obtain ⟨hsub, hsubset⟩ := List.forall_mem_cons.mp hsubset
      obtain ⟨hitem, hnodup⟩ := List.forall_mem_cons.mp hnodup
      have hrest : ∀ e, Slides (fun r => if r ∈ item.2 then pull cursor item.1 else 0) d e →
          Slides (shiftOf spacing cursor (item :: rest)) d
            (lineUp spacing (cursor + (item.1.width + spacing)) rest e) := by
        intro e he
        have hroots : e.roots = d.roots := congrArg Skeleton.roots he.skeleton_eq
        exact he.trans (ih (he.skeleton_eq.symm ▸ hd) (hroots ▸ hsubset) hnodup)
      have hzero : (0.0 : ℝ) = 0 := by norm_num
      apply hrest
      rw [pull, hzero]
      split
      · exact slides_translateRoots hd hsub hitem _
      · exact (Slides.refl d).congr fun r => by simp

/-! ## The line -/

section Line

variable {spacing cursor : ℝ} {items : List (Extent ℝ × List Nat)}

/-- A component ends up near the cursor. -/
theorem abs_pull_le (cursor : ℝ) (e : Extent ℝ) : |e.minX + pull cursor e - cursor| ≤ 1e-6 := by
  rw [pull]
  split
  next =>
    rw [add_sub_cancel, sub_self, abs_zero]
    norm_num
  next hnear =>
    rw [add_zero, abs_sub_comm]
    exact not_lt.mp hnear

/-- What has been moved to the cursor, or was near enough, is near enough. -/
theorem not_far_shift_pull (cursor : ℝ) (e : Extent ℝ) :
    ¬1e-6 < Scalar.abs (cursor - (e.shift (pull cursor e)).minX) := by
  have hnear := abs_pull_le cursor e
  rw [abs_sub_comm] at hnear
  exact not_lt.mpr hnear

theorem map_snd_lined (spacing cursor : ℝ) (items : List (Extent ℝ × List Nat)) :
    (lined spacing cursor items).map Prod.snd = items.map Prod.snd := by
  induction items generalizing cursor with
  | nil => rfl
  | cons item rest ih => rw [lined, List.map_cons, ih, List.map_cons]

/-- Components that have been lined up stay where they are. -/
theorem lineUp_lined (d : Drawing ℝ) : lineUp spacing cursor (lined spacing cursor items) d = d := by
  induction items generalizing cursor with
  | nil => rfl
  | cons item rest ih =>
      rw [lined, lineUp, if_neg (not_far_shift_pull cursor item.1), Extent.width_shift]
      exact ih

theorem shiftOf_eq_zero {r : Nat} (hr : ∀ p ∈ items, r ∉ p.2) :
    shiftOf spacing cursor items r = 0 := by
  induction items generalizing cursor with
  | nil => rfl
  | cons item rest ih =>
      obtain ⟨hitem, hrest⟩ := List.forall_mem_cons.mp hr
      rw [shiftOf, if_neg hitem, ih hrest, add_zero]

/-- Every component is moved as a whole. -/
theorem exists_shift_of_mem_lined (hdisjoint : (items.map Prod.snd).Pairwise List.Disjoint) :
    ∀ q ∈ lined spacing cursor items, ∃ p ∈ items, ∃ dx, q = (p.1.shift dx, p.2) ∧
      ∀ r ∈ p.2, shiftOf spacing cursor items r = dx := by
  induction items generalizing cursor with
  | nil => simp [lined]
  | cons item rest ih =>
      rw [List.map_cons, List.pairwise_cons, List.forall_mem_map] at hdisjoint
      obtain ⟨hfirst, hdisjoint⟩ := hdisjoint
      refine List.forall_mem_cons.mpr ⟨?_, fun q hq => ?_⟩
      · refine ⟨item, List.mem_cons_self, pull cursor item.1, rfl, fun r hr => ?_⟩
        rw [shiftOf, if_pos hr, shiftOf_eq_zero fun p hp => hfirst p hp hr, add_zero]
      · obtain ⟨p, hp, dx, hq, hshift⟩ := ih hdisjoint q hq
        refine ⟨p, List.mem_cons_of_mem _ hp, dx, hq, fun r hr => ?_⟩
        rw [shiftOf, if_neg fun hitem => hfirst p hp hitem hr, zero_add, hshift r hr]

variable (hspacing : 0 ≤ spacing) (hwidth : ∀ p ∈ items, 0 ≤ p.1.width)
include hspacing hwidth

theorem le_minX_of_mem_lined :
    ∀ q ∈ lined spacing cursor items, cursor - 1e-6 ≤ q.1.minX := by
  induction items generalizing cursor with
  | nil => simp [lined]
  | cons item rest ih =>
      obtain ⟨hitem, hrest⟩ := List.forall_mem_cons.mp hwidth
      refine List.forall_mem_cons.mpr ⟨?_, fun q hq => ?_⟩
      · have hnear := (abs_le.mp (abs_pull_le cursor item.1)).1
        rw [Extent.minX_shift]
        linarith
      · have hlater := ih hrest q hq
        linarith

/-- The cursor is at least a spacing beyond every component that it has passed, up to what two
components may be off. -/
theorem pairwise_lined : (lined spacing cursor items).Pairwise fun p q =>
    p.1.maxX + (spacing - 2e-6) ≤ q.1.minX := by
  induction items generalizing cursor with
  | nil => exact List.Pairwise.nil
  | cons item rest ih =>
      obtain ⟨hitem, hrest⟩ := List.forall_mem_cons.mp hwidth
      refine List.pairwise_cons.mpr ⟨fun q hq => ?_, ih hrest⟩
      have hnear := (abs_le.mp (abs_pull_le cursor item.1)).2
      have hlater := le_minX_of_mem_lined hspacing hrest q hq
      have hsides : item.1.maxX = item.1.minX + item.1.width := (add_sub_cancel _ _).symm
      rw [Extent.maxX_shift]
      norm_num at hnear hlater ⊢
      linarith

end Line

/-! ## Items -/

/-- The components of a drawing from left to right. -/
noncomputable def packItems (d : Drawing ℝ) : List (Extent ℝ × List Nat) :=
  d.componentExtents.mergeSort fun a b => Scalar.sortLe a.1.minX b.1.minX

/-- The left edge of the first of some components. -/
noncomputable def front : List (Extent ℝ × List Nat) → ℝ
  | [] => 0
  | (e, _) :: _ => e.minX

theorem pull_self (e : Extent ℝ) : pull e.minX e = 0 := by
  rw [pull, sub_self]
  split <;> rfl

theorem lineUp_front_of_length {items : List (Extent ℝ × List Nat)} (h : items.length < 2)
    (spacing : ℝ) (d : Drawing ℝ) : lineUp spacing (front items) items d = d := by
  match items with
  | [] => rfl
  | [item] =>
      have hshift : item.1.shift (pull item.1.minX item.1) = item.1 := by
        rw [pull_self, Extent.shift, add_zero, add_zero]
      have hfar := not_far_shift_pull item.1.minX item.1
      rw [hshift] at hfar
      exact if_neg hfar
  | _ :: _ :: _ => exact absurd h (by simp)

/-- Packing lines the components up, however few they are. -/
theorem packComponents_snd (d : Drawing ℝ) (spacing : ℝ) :
    (d.packComponents spacing).2 = lineUp spacing (front d.packItems) d.packItems d := by
  have hlength : d.packItems.length = d.rootComponents.length := by
    rw [packItems, List.length_mergeSort, length_componentExtents fun _ => rfl]
  rw [packComponents]
  split
  next hfew =>
    rw [← d.classes_rootComponents.length_eq_of_lt_two hfew, ← hlength] at hfew
    exact (lineUp_front_of_length hfew spacing d).symm
  next =>
    dsimp only
    split
    next hfew =>
      rw [← hlength] at hfew
      exact (lineUp_front_of_length hfew spacing d).symm
    next =>
      unfold packItems
      cases d.componentExtents.mergeSort fun a b => Scalar.sortLe a.1.minX b.1.minX with
      | nil => rfl
      | cons item rest => rfl

theorem componentExtents_eq (d : Drawing ℝ) : d.componentExtents =
    d.rootParts.filterMap fun roots => (d.rootsExtent? roots).map fun e => (e, roots) := by
  rw [componentExtents, rootParts, List.filterMap_map]
  rfl

theorem rootsExtent?_of_mem_packItems : ∀ p ∈ d.packItems, d.rootsExtent? p.2 = some p.1 := by
  intro p hp
  rw [packItems, List.mem_mergeSort, componentExtents_eq] at hp
  obtain ⟨roots, -, heq⟩ := List.mem_filterMap.mp hp
  obtain ⟨e, he, rfl⟩ := Option.map_eq_some_iff.mp heq
  exact he

theorem packItems_sorted (d : Drawing ℝ) : d.packItems.Pairwise fun p q => p.1.minX ≤ q.1.minX := by
  have hsorted : d.packItems.Pairwise fun a b => Scalar.sortLe a.1.minX b.1.minX = true := by
    refine List.pairwise_mergeSort (fun a b c => ?_) (fun a b => ?_) d.componentExtents
    · simp only [Scalar.sortLe, decide_eq_true_eq]
      exact le_trans
    · simpa [Scalar.sortLe] using le_total a.1.minX b.1.minX
  exact hsorted.imp of_decide_eq_true

/-- Components with their extents are the components of a drawing; they come in its order if their
left edges do. -/
theorem packItems_eq {items : List (Extent ℝ × List Nat)}
    (hroots : (items.map Prod.snd).Perm d.rootParts)
    (hextent : ∀ p ∈ items, d.rootsExtent? p.2 = some p.1)
    (hsorted : items.Pairwise fun p q => p.1.minX < q.1.minX) : d.packItems = items := by
  have hperm : items.Perm d.componentExtents := by
    have hitems : (items.map Prod.snd).filterMap
        (fun roots => (d.rootsExtent? roots).map fun e => (e, roots)) = items := by
      rw [List.filterMap_map]
      refine (List.filterMap_congr fun p hp => ?_).trans List.filterMap_some
      rw [Function.comp_apply, hextent p hp]
      rfl
    rw [← hitems, componentExtents_eq]
    exact hroots.filterMap _
  refine List.Perm.eq_of_pairwise ?_ d.packItems_sorted (hsorted.imp le_of_lt)
    ((List.mergeSort_perm _ _).trans hperm.symm)
  intro p q hp hq hpq hqp
  have hsymm : Std.Symm fun p q : Extent ℝ × List Nat => p.1.minX ≠ q.1.minX :=
    ⟨fun _ _ => Ne.symm⟩
  by_contra hne
  exact (hsorted.imp ne_of_lt).forall (hperm.mem_iff.mpr (List.mem_mergeSort.mp hp)) hq hne
    (le_antisymm hpq hqp)

/-! ## Parts in a line -/

/-- Where two drawings have the same parts, all of one part is to the left of another in the
second drawing, with a gap between them. -/
def Before (d d' : Drawing ℝ) (gap : ℝ) (u v : Nat) : Prop :=
  ∀ a b, d.Together u a → d.Together v b → (d'.body a).box.right + gap ≤ (d'.body b).box.left

/-- The second drawing is the first one packed. -/
structure Packed (spacing : ℝ) (d d' : Drawing ℝ) : Prop where
  /-- Parts keep their distance, up to what two of them may be off. -/
  apart : ∀ u v, d.Active u → d.Active v → ¬d.Together u v →
    Before d d' (spacing - 2e-6) u v ∨ Before d d' (spacing - 2e-6) v u
  /-- Every part has moved as a whole and along the horizontal axis only. -/
  rigid : ∃ shift : Nat → ℝ, (∀ u v, d.Together u v → shift u = shift v) ∧
    (∀ u, ¬d.Active u → shift u = 0) ∧ ∀ u, d'.body u = (d.body u).translate ⟨shift u, 0⟩
  size_eq : d'.bodies.size = d.bodies.size
  rest_eq : { d' with bodies := d.bodies } = d
  together_iff : ∀ u v, d'.Together u v ↔ d.Together u v
  /-- A part whose left edge was further left than that of another is before it. -/
  inOrder : ∀ u v, d.Active u → d.Active v →
    (∃ a, d.Together u a ∧ ∀ b, d.Together v b → (d.body a).box.left < (d.body b).box.left) →
      Before d d' (spacing - 2e-6) u v
  /-- A part that began furthest left has not moved. -/
  leftmost : ∀ w, d.Active w → ∃ u, d.Active u ∧
    (∀ v, d.Active v → (d.body u).box.left ≤ (d.body v).box.left) ∧
      ∀ a, d.Together u a → d'.body a = d.body a
  /-- Packing once more moves nothing. -/
  again : (d'.packComponents spacing).2 = d'

theorem ShowsParts.perm {parts parts' : List (List Nat)} (h : d.ShowsParts parts)
    (hperm : parts'.Perm parts) : d.ShowsParts parts' where
  ne_nil p hp := h.ne_nil p (hperm.mem_iff.mp hp)
  nodup p hp := h.nodup p (hperm.mem_iff.mp hp)
  subset p hp := h.subset p (hperm.mem_iff.mp hp)
  disjoint := (hperm.pairwise_iff List.Disjoint.symm).mpr h.disjoint
  exists_mem u hu := (h.exists_mem u hu).imp fun _ => And.imp_left hperm.mem_iff.mpr
  together_iff p hp := h.together_iff p (hperm.mem_iff.mp hp)

theorem map_snd_packItems (h : d.ShowsParts d.rootParts) :
    (d.packItems.map Prod.snd).Perm d.rootParts := by
  have hsnd : d.componentExtents.map Prod.snd = d.rootParts := by
    rw [componentExtents_eq, List.map_filterMap]
    refine (List.filterMap_congr fun p hp => ?_).trans List.filterMap_some
    obtain ⟨e, he⟩ := d.exists_rootsExtent? (h.ne_nil p hp)
    rw [he]
    rfl
  rw [← hsnd]
  exact (List.mergeSort_perm _ _).map Prod.snd

theorem rootParts_congr (h : d'.skeleton = d.skeleton) : d'.rootParts = d.rootParts := by
  have hroots : d'.roots = d.roots := congrArg Skeleton.roots h
  have hpairs : d'.rootPairs = d.rootPairs := by
    rw [← rootPairs_wiring, h, rootPairs_wiring]
  have hrootsOf : d'.rootsOf = d.rootsOf := by
    funext component
    rw [rootsOf, hroots, rootsOf]
  rw [rootParts, hrootsOf, rootComponents, hroots, hpairs]
  rfl

theorem Slides.together_iff {shift : Nat → ℝ} (h : Slides shift d d') (u v : Nat) :
    d'.Together u v ↔ d.Together u v := by
  have hrole : ∀ w, (d'.body w).role = (d.body w).role := fun w => by rw [h.body_eq, Body.translate]
  have hlinks : d'.links = d.links := by
    rw [← h.rest_eq]
  have htie : d'.Tie = d.Tie := by
    funext u v
    refine propext ⟨fun htie => ?_, fun htie => ?_⟩
    · cases htie with
      | link hl => exact .link (hlinks ▸ hl)
      | ring hu hv => exact .ring (hrole u ▸ hu) (hrole v ▸ hv)
    · cases htie with
      | link hl => exact .link (hlinks.symm ▸ hl)
      | ring hu hv => exact .ring ((hrole u).symm ▸ hu) ((hrole v).symm ▸ hv)
  rw [Together, htie, Together]

namespace Proper

variable (h : Proper members d) (spacing : ℝ)
include h

theorem showsParts : d.ShowsParts (d.packItems.map Prod.snd) := by
  have hparts := showsParts_rootParts h.sound h.rooted
  exact hparts.perm (map_snd_packItems hparts)

theorem subset_roots : ∀ p ∈ d.packItems, p.2 ⊆ d.roots :=
  fun _ hp => h.showsParts.subset _ (List.mem_map_of_mem hp)

theorem slides_packed : Slides (shiftOf spacing (front d.packItems) d.packItems) d
    (d.packComponents spacing).2 := by
  rw [packComponents_snd]
  exact slides_lineUp h.sound h.subset_roots
    fun _ hp => h.showsParts.nodup _ (List.mem_map_of_mem hp)

/-- A component is at least as wide as its bodies. -/
theorem one_le_width_of_mem : ∀ p ∈ d.packItems, 1 ≤ p.1.width := by
  intro p hp
  have hextent := d.rootsExtent?_of_mem_packItems p hp
  obtain ⟨-, ⟨u, hu, rfl⟩, hleft⟩ :=
    (bounds_rootsExtent? h.sound (h.subset_roots p hp) hextent).minX.1
  have hright := right_le_maxX h.sound (h.subset_roots p hp) hextent hu
  have hwidth := h.one_le_width u ((active_iff h.sound).mpr (h.subset_roots p hp hu)).1
  change 1 ≤ p.1.maxX - p.1.minX
  rw [← hleft]
  have hsides : (d.body u).box.right = (d.body u).box.left + (d.body u).box.width := rfl
  linarith

theorem rootsExtent?_lined : ∀ q ∈ lined spacing (front d.packItems) d.packItems,
    (d.packComponents spacing).2.rootsExtent? q.2 = some q.1 := by
  intro q hq
  obtain ⟨p, hp, dx, rfl, hshift⟩ := exists_shift_of_mem_lined h.showsParts.disjoint q hq
  rw [(h.slides_packed spacing).rootsExtent? h.sound (h.subset_roots p hp) hshift,
    d.rootsExtent?_of_mem_packItems p hp]
  rfl

variable {spacing} (hspacing : 0 < spacing)
include hspacing

theorem pairwise_line : (lined spacing (front d.packItems) d.packItems).Pairwise fun p q =>
    p.1.maxX + (spacing - 2e-6) ≤ q.1.minX :=
  pairwise_lined hspacing.le fun p hp => zero_le_one.trans (h.one_le_width_of_mem p hp)

/-- The packed components are those of the packed drawing, in the same order. -/
theorem packItems_packed : (d.packComponents spacing).2.packItems =
    lined spacing (front d.packItems) d.packItems := by
  have hparts := showsParts_rootParts h.sound h.rooted
  apply packItems_eq
  case hroots =>
    rw [map_snd_lined, rootParts_congr (h.slides_packed spacing).skeleton_eq]
    exact map_snd_packItems hparts
  case hextent => exact h.rootsExtent?_lined spacing
  case hsorted =>
    refine (h.pairwise_line hspacing).imp_of_mem fun {p q} hp _ hpq => ?_
    -- a component is wider than what the gap may fall short by
    obtain ⟨p', hp', dx, rfl, -⟩ := exists_shift_of_mem_lined h.showsParts.disjoint p hp
    have hwidth := h.one_le_width_of_mem p' hp'
    have hsides : p'.1.maxX = p'.1.minX + p'.1.width := (add_sub_cancel _ _).symm
    norm_num at hpq ⊢
    linarith

theorem packComponents_packed :
    ((d.packComponents spacing).2.packComponents spacing).2 = (d.packComponents spacing).2 := by
  have hfront : front (lined spacing (front d.packItems) d.packItems) = front d.packItems := by
    cases d.packItems with
    | nil => rfl
    | cons item rest =>
        change item.1.minX + pull item.1.minX item.1 = item.1.minX
        rw [pull_self, add_zero]
  rw [packComponents_snd, h.packItems_packed hspacing, hfront, lineUp_lined]

omit hspacing in
/-- The bodies of a part are within its packed component. -/
theorem sides_packed {q : Extent ℝ × List Nat}
    (hq : q ∈ lined spacing (front d.packItems) d.packItems) {u a : Nat} (hu : d.Active u)
    (huq : d.representative u ∈ q.2) (hua : d.Together u a) :
    q.1.minX ≤ ((d.packComponents spacing).2.body a).box.left ∧
      ((d.packComponents spacing).2.body a).box.right ≤ q.1.maxX := by
  have hskeleton := (h.slides_packed spacing).skeleton_eq
  have hd' : (d.packComponents spacing).2.skeleton.Sound members := hskeleton.symm ▸ h.sound
  have hmem : q.2 ∈ d.packItems.map Prod.snd := by
    rw [← map_snd_lined spacing (front d.packItems)]
    exact List.mem_map_of_mem hq
  have hsubset : q.2 ⊆ (d.packComponents spacing).2.roots := by
    have hroots : (d.packComponents spacing).2.roots = d.roots :=
      congrArg Skeleton.roots hskeleton
    rw [hroots]
    exact h.showsParts.subset _ hmem
  have ha : (d.packComponents spacing).2.representative a ∈ q.2 := by
    have hactive := (hua.active_iff h.sound h.rooted).mp hu
    rw [representative_congr hskeleton]
    exact (h.showsParts.together_iff _ hmem u a hu hactive huq).mp hua
  have hextent := h.rootsExtent?_lined spacing q hq
  exact ⟨minX_le_left hd' hsubset hextent ha, right_le_maxX hd' hsubset hextent ha⟩

/-- Parts come in the order of their components. -/
theorem before_of_lt {i j : Nat} (hij : i < j) (hj : j < d.packItems.length) {u v : Nat}
    (hu : d.Active u) (hv : d.Active v) (hui : d.representative u ∈ d.packItems[i].2)
    (hvj : d.representative v ∈ d.packItems[j].2) :
    Before d (d.packComponents spacing).2 (spacing - 2e-6) u v := by
  have hsnd := map_snd_lined spacing (front d.packItems) d.packItems
  have hgap := h.pairwise_line hspacing
  have hsides : ∀ q ∈ lined spacing (front d.packItems) d.packItems, ∀ w c, d.Active w →
      d.representative w ∈ q.2 → d.Together w c →
        q.1.minX ≤ ((d.packComponents spacing).2.body c).box.left ∧
          ((d.packComponents spacing).2.body c).box.right ≤ q.1.maxX :=
    fun q hq w c => h.sides_packed hq
  generalize lined spacing (front d.packItems) d.packItems = after at hsnd hgap hsides
  have hlength : after.length = d.packItems.length := by
    simpa using congrArg List.length hsnd
  have hjafter : j < after.length := hlength ▸ hj
  have hiafter : i < after.length := hij.trans hjafter
  have hroots : ∀ k (hk : k < d.packItems.length) (hkafter : k < after.length),
      after[k].2 = d.packItems[k].2 := by
    intro k hk hkafter
    have hget := List.getElem_of_eq hsnd (i := k) (by simpa using hkafter)
    simpa using hget
  rw [← hroots i (hij.trans hj) hiafter] at hui
  rw [← hroots j hj hjafter] at hvj
  intro a b ha hb
  have hright := (hsides _ (List.getElem_mem hiafter) u a hu hui ha).2
  have hleft := (hsides _ (List.getElem_mem hjafter) v b hv hvj hb).1
  have hbetween := List.pairwise_iff_getElem.mp hgap i j hiafter hjafter hij
  linarith

omit spacing hspacing in
/-- Every part has its component. -/
theorem exists_index {u : Nat} (hu : d.Active u) :
    ∃ i, ∃ hi : i < d.packItems.length, d.representative u ∈ d.packItems[i].2 := by
  obtain ⟨p, hp, hup⟩ := h.showsParts.exists_mem u hu
  obtain ⟨item, hitem, rfl⟩ := List.mem_map.mp hp
  obtain ⟨i, hi, rfl⟩ := List.getElem_of_mem hitem
  exact ⟨i, hi, hup⟩

omit spacing hspacing in
theorem together_of_mem_getElem {i : Nat} (hi : i < d.packItems.length) {u v : Nat}
    (hu : d.Active u) (hv : d.Active v) (hui : d.representative u ∈ d.packItems[i].2)
    (hvi : d.representative v ∈ d.packItems[i].2) : d.Together u v :=
  (h.showsParts.together_iff _ (List.mem_map_of_mem (List.getElem_mem hi)) u v hu hv hui).mpr hvi

omit hspacing in
theorem exists_rigid : ∃ shift : Nat → ℝ, (∀ u v, d.Together u v → shift u = shift v) ∧
    (∀ u, ¬d.Active u → shift u = 0) ∧
      ∀ u, (d.packComponents spacing).2.body u = (d.body u).translate ⟨shift u, 0⟩ := by
  have hzero : ∀ u, ¬d.Active u →
      shiftOf spacing (front d.packItems) d.packItems (d.representative u) = 0 := by
    intro u hu
    refine shiftOf_eq_zero fun p hp hmem => hu ?_
    exact (active_iff h.sound).mpr (h.subset_roots p hp hmem)
  refine ⟨_, fun u v huv => ?_, hzero, (h.slides_packed spacing).body_eq⟩
  by_cases hu : d.Active u
  · have hv := (huv.active_iff h.sound h.rooted).mp hu
    obtain ⟨p, hp, hup⟩ := h.showsParts.exists_mem u hu
    have hvp := (h.showsParts.together_iff p hp u v hu hv hup).mp huv
    rw [← map_snd_lined spacing (front d.packItems)] at hp
    obtain ⟨q, hq, rfl⟩ := List.mem_map.mp hp
    obtain ⟨item, -, dx, rfl, hshift⟩ := exists_shift_of_mem_lined h.showsParts.disjoint q hq
    rw [hshift _ hup, hshift _ hvp]
  · have hv : ¬d.Active v := fun hv => hu ((huv.active_iff h.sound h.rooted).mpr hv)
    rw [hzero u hu, hzero v hv]

omit spacing hspacing in
/-- A component begins with the left edge of a body of its part. -/
theorem exists_left_eq_minX {i : Nat} (hi : i < d.packItems.length) :
    ∃ w, d.Active w ∧ d.representative w ∈ d.packItems[i].2 ∧
      (d.body w).box.left = d.packItems[i].1.minX := by
  have hmem := List.getElem_mem hi
  obtain ⟨-, ⟨w, hw, rfl⟩, hleft⟩ := (bounds_rootsExtent? h.sound (h.subset_roots _ hmem)
    (d.rootsExtent?_of_mem_packItems _ hmem)).minX.1
  exact ⟨w, (active_iff h.sound).mpr (h.subset_roots _ hmem hw), hw, hleft⟩

omit spacing hspacing in
theorem minX_le_left_of_mem {i : Nat} (hi : i < d.packItems.length) {u : Nat}
    (hu : d.representative u ∈ d.packItems[i].2) :
    d.packItems[i].1.minX ≤ (d.body u).box.left :=
  minX_le_left h.sound (h.subset_roots _ (List.getElem_mem hi))
    (d.rootsExtent?_of_mem_packItems _ (List.getElem_mem hi)) hu

theorem before_of_left_lt {u v : Nat} (hu : d.Active u) (hv : d.Active v) {a : Nat}
    (ha : d.Together u a)
    (hleft : ∀ b, d.Together v b → (d.body a).box.left < (d.body b).box.left) :
    Before d (d.packComponents spacing).2 (spacing - 2e-6) u v := by
  obtain ⟨i, hi, hui⟩ := h.exists_index hu
  obtain ⟨j, hj, hvj⟩ := h.exists_index hv
  have hai : d.representative a ∈ d.packItems[i].2 :=
    (h.showsParts.together_iff _ (List.mem_map_of_mem (List.getElem_mem hi)) u a hu
      ((ha.active_iff h.sound h.rooted).mp hu) hui).mp ha
  obtain ⟨b, hb, hbj, hbleft⟩ := h.exists_left_eq_minX hj
  have hlt : d.packItems[i].1.minX < d.packItems[j].1.minX :=
    calc d.packItems[i].1.minX ≤ (d.body a).box.left := h.minX_le_left_of_mem hi hai
      _ < (d.body b).box.left := hleft b (h.together_of_mem_getElem hj hv hb hvj hbj)
      _ = d.packItems[j].1.minX := hbleft
  rcases Nat.lt_trichotomy i j with hij | rfl | hji
  · exact h.before_of_lt hspacing hij hj hu hv hui hvj
  · exact absurd hlt (lt_irrefl _)
  · exact absurd (List.pairwise_iff_getElem.mp d.packItems_sorted j i hj hi hji) hlt.not_ge

omit hspacing in
/-- The part of the first component stays where it is. -/
theorem exists_leftmost {w : Nat} (hw : d.Active w) : ∃ u, d.Active u ∧
    (∀ v, d.Active v → (d.body u).box.left ≤ (d.body v).box.left) ∧
      ∀ a, d.Together u a → (d.packComponents spacing).2.body a = d.body a := by
  obtain ⟨k, hk, -⟩ := h.exists_index hw
  have hfirst : 0 < d.packItems.length := Nat.zero_lt_of_lt hk
  obtain ⟨u, hu, hu0, hleft⟩ := h.exists_left_eq_minX hfirst
  refine ⟨u, hu, fun v hv => ?_, fun a ha => ?_⟩
  · obtain ⟨j, hj, hvj⟩ := h.exists_index hv
    have hle : d.packItems[0].1.minX ≤ d.packItems[j].1.minX := by
      rcases Nat.eq_zero_or_pos j with rfl | hpos
      · exact le_rfl
      · exact List.pairwise_iff_getElem.mp d.packItems_sorted 0 j hfirst hj hpos
    rw [hleft]
    exact hle.trans (h.minX_le_left_of_mem hj hvj)
  · have ha0 : d.representative a ∈ d.packItems[0].2 :=
      (h.showsParts.together_iff _ (List.mem_map_of_mem (List.getElem_mem hfirst)) u a hu
        ((ha.active_iff h.sound h.rooted).mp hu) hu0).mp ha
    have hdisjoint := h.showsParts.disjoint
    have hstays : shiftOf spacing (front d.packItems) d.packItems (d.representative a) = 0 := by
      cases hitems : d.packItems with
      | nil => rfl
      | cons item rest =>
          simp only [hitems, List.map_cons, List.pairwise_cons, List.forall_mem_map,
            List.getElem_cons_zero] at hdisjoint ha0
          rw [shiftOf, if_pos ha0, shiftOf_eq_zero fun p hp => hdisjoint.1 p hp ha0]
          change pull item.1.minX item.1 + 0 = 0
          rw [pull_self, add_zero]
    rw [(h.slides_packed spacing).body_eq, hstays, Body.translate, Box.translate_zero]

/-- Packing a proper drawing packs it. -/
theorem packed : Packed spacing d (d.packComponents spacing).2 := by
  have hslides := h.slides_packed spacing
  constructor
  case apart =>
    intro u v hu hv hne
    obtain ⟨i, hi, hui⟩ := h.exists_index hu
    obtain ⟨j, hj, hvj⟩ := h.exists_index hv
    rcases Nat.lt_trichotomy i j with hij | rfl | hji
    · exact Or.inl (h.before_of_lt hspacing hij hj hu hv hui hvj)
    · exact absurd (h.together_of_mem_getElem hi hu hv hui hvj) hne
    · exact Or.inr (h.before_of_lt hspacing hji hi hv hu hvj hui)
  case rigid => exact h.exists_rigid
  case size_eq => exact congrArg Skeleton.bodyCount hslides.skeleton_eq
  case rest_eq => exact hslides.rest_eq
  case together_iff => exact hslides.together_iff
  case inOrder =>
    rintro u v hu hv ⟨a, ha, hleft⟩
    exact h.before_of_left_lt hspacing hu hv ha hleft
  case leftmost => exact fun _ hw => h.exists_leftmost hw
  case again => exact h.packComponents_packed hspacing

end Proper

end Drawing

/-- In exact arithmetic every drawing that comes up in a run is packed by packing it. -/
theorem Run.packed_of_visits {g : Graph ℝ} {o : Options ℝ} {start : Run ℝ}
    (h : create g o = .ok start) {d : Drawing ℝ} (hd : start.Visits d) {spacing : ℝ}
    (hspacing : 0 < spacing) : Drawing.Packed spacing d (d.packComponents spacing).2 := by
  obtain ⟨built, hbuild, rfl⟩ := create_eq_ok h
  exact (hd.proper hbuild).packed hspacing

theorem Run.packed_partsAndLoners : ∃ start : Run ℝ,
    create Drawing.partsAndLoners Drawing.pairRing = .ok start ∧ (0 : ℝ) < 10 ∧
      Drawing.Packed 10 (start.afterAll [.prerun]).drawing
        ((start.afterAll [.prerun]).drawing.packComponents 10).2 := by
  have hspacing : (0 : ℝ) < 10 := by norm_num
  exact ⟨_, create_partsAndLoners, hspacing,
    packed_of_visits create_partsAndLoners (.after [.prerun]) hspacing⟩

end RingLayout
