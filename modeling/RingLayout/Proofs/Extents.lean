import Mathlib.Order.Bounds.Image
import RingLayout.Proofs.Scalar.Real
import RingLayout.Proofs.Motions.Course
import RingLayout.Proofs.Parts

/-! # Extents in exact arithmetic

Over the real numbers the extent of some boxes has the least and the greatest sides among theirs,
and it moves along when all of them move.
-/

namespace RingLayout

theorem Scalar.minNum_real (x y : ℝ) : Scalar.minNum x y = min y x := by
  rw [Scalar.minNum, min_def]
  split
  next h => rw [if_pos h.le]
  next h =>
    rw [if_pos le_rfl]
    split
    next hle => exact le_antisymm (not_lt.mp h) hle
    next => rfl

theorem Scalar.maxNum_real (x y : ℝ) : Scalar.maxNum x y = max y x := by
  rw [Scalar.maxNum, max_def]
  split
  next h => rw [if_neg h.not_ge]
  next h => rw [if_pos le_rfl, if_pos (not_lt.mp h)]

namespace Extent

/-- The sides of an extent are the outermost among those of some boxes. -/
structure Bounds (e : Extent ℝ) (boxes : Set (Box ℝ)) : Prop where
  minX : IsLeast (Box.left '' boxes) e.minX
  minY : IsLeast (Box.top '' boxes) e.minY
  maxX : IsGreatest (Box.right '' boxes) e.maxX
  maxY : IsGreatest (Box.bottom '' boxes) e.maxY

theorem bounds_ofBox (b : Box ℝ) : (ofBox b).Bounds {b} := by
  constructor
  all_goals
    rw [Set.image_singleton]
    first | exact isLeast_singleton | exact isGreatest_singleton

namespace Bounds

variable {e e' : Extent ℝ} {boxes : Set (Box ℝ)}

theorem grow (h : e.Bounds boxes) (b : Box ℝ) : (e.grow b).Bounds (insert b boxes) := by
  constructor
  all_goals
    rw [Set.image_insert_eq, Extent.grow]
    simp only [Scalar.minNum_real, Scalar.maxNum_real]
  case minX => exact h.minX.insert _
  case minY => exact h.minY.insert _
  case maxX => exact h.maxX.insert _
  case maxY => exact h.maxY.insert _

theorem unique (h : e.Bounds boxes) (h' : e'.Bounds boxes) : e = e' := by
  cases e
  cases e'
  rw [Extent.mk.injEq]
  exact ⟨h.minX.unique h'.minX, h.minY.unique h'.minY, h.maxX.unique h'.maxX,
    h.maxY.unique h'.maxY⟩

end Bounds

theorem bounds_cover? {boxes : List (Box ℝ)} {e : Extent ℝ} (h : cover? boxes = some e) :
    e.Bounds {b | b ∈ boxes} := by
  have hfold : ∀ (rest : List (Box ℝ)) (e : Extent ℝ) (s : Set (Box ℝ)), e.Bounds s →
      (rest.foldl grow e).Bounds (s ∪ {b | b ∈ rest}) := by
    intro rest
    induction rest with
    | nil =>
        intro e s he
        simpa using he
    | cons b rest ih =>
        intro e s he
        have hset : s ∪ {b' | b' ∈ b :: rest} = insert b s ∪ {b' | b' ∈ rest} := by
          ext b'
          simp only [Set.mem_union, Set.mem_ofPred_eq, List.mem_cons, Set.mem_insert_iff]
          tauto
        rw [hset]
        exact ih _ _ (he.grow b)
  cases boxes with
  | nil => cases h
  | cons b rest =>
      obtain rfl : rest.foldl grow (ofBox b) = e := by
        simpa [cover?, isFinite, Scalar.isFinite] using h
      have hset : {b' | b' ∈ b :: rest} = {b} ∪ {b' | b' ∈ rest} := by
        ext b'
        simp
      rw [hset]
      exact hfold rest _ _ (bounds_ofBox b)

theorem exists_cover? {boxes : List (Box ℝ)} (h : boxes ≠ []) : ∃ e, cover? boxes = some e :=
  Option.isSome_iff_exists.mp (Drawing.isSome_cover? (fun _ => rfl) h)

/-- An extent moved along the horizontal axis. -/
def shift (e : Extent ℝ) (dx : ℝ) : Extent ℝ := { e with minX := e.minX + dx, maxX := e.maxX + dx }

@[simp] theorem minX_shift (e : Extent ℝ) (dx : ℝ) : (e.shift dx).minX = e.minX + dx := rfl

@[simp] theorem maxX_shift (e : Extent ℝ) (dx : ℝ) : (e.shift dx).maxX = e.maxX + dx := rfl

@[simp] theorem width_shift (e : Extent ℝ) (dx : ℝ) : (e.shift dx).width = e.width :=
  add_sub_add_right_eq_sub ..

theorem Bounds.shift {e : Extent ℝ} {boxes : Set (Box ℝ)} (h : e.Bounds boxes) (dx : ℝ) :
    (e.shift dx).Bounds ((·.translate ⟨dx, 0⟩) '' boxes) := by
  have hmono : Monotone (· + dx) := fun _ _ hle => add_le_add_left hle dx
  have hleft : Box.left '' ((·.translate ⟨dx, 0⟩) '' boxes) = (· + dx) '' (Box.left '' boxes) := by
    rw [Set.image_image, Set.image_image]
    rfl
  have hright : Box.right '' ((·.translate ⟨dx, 0⟩) '' boxes) =
      (· + dx) '' (Box.right '' boxes) := by
    rw [Set.image_image, Set.image_image]
    exact Set.image_congr fun b _ => add_right_comm b.left dx b.width
  have htop : Box.top '' ((·.translate ⟨dx, 0⟩) '' boxes) = Box.top '' boxes := by
    rw [Set.image_image]
    exact Set.image_congr fun b _ => add_zero b.top
  have hbottom : Box.bottom '' ((·.translate ⟨dx, 0⟩) '' boxes) = Box.bottom '' boxes := by
    rw [Set.image_image]
    exact Set.image_congr fun b _ => congrArg (· + b.height) (add_zero b.top)
  constructor
  case minX =>
    rw [hleft]
    exact hmono.map_isLeast h.minX
  case minY =>
    rw [htop]
    exact h.minY
  case maxX =>
    rw [hright]
    exact hmono.map_isGreatest h.maxX
  case maxY =>
    rw [hbottom]
    exact h.maxY

/-- Moving all boxes moves their extent. -/
theorem cover?_map_translate (boxes : List (Box ℝ)) (dx : ℝ) :
    cover? (boxes.map (·.translate ⟨dx, 0⟩)) = (cover? boxes).map (·.shift dx) := by
  by_cases hnil : boxes = []
  · rw [hnil]
    rfl
  · obtain ⟨e, he⟩ := exists_cover? hnil
    have hmoved : boxes.map (·.translate ⟨dx, 0⟩) ≠ [] := by simpa
    obtain ⟨e', he'⟩ := exists_cover? hmoved
    have hset : {b | b ∈ boxes.map (·.translate ⟨dx, 0⟩)} =
        (·.translate ⟨dx, 0⟩) '' {b | b ∈ boxes} := by
      ext b
      simp
    have hbounds := bounds_cover? he'
    rw [hset] at hbounds
    rw [he, he', hbounds.unique ((bounds_cover? he).shift dx)]
    rfl

end Extent

namespace Drawing

variable {members : Nat → List Nat} {d : Drawing ℝ}

theorem exists_rootsExtent? (d : Drawing ℝ) {roots : List Nat} (h : roots ≠ []) :
    ∃ e, d.rootsExtent? roots = some e :=
  Option.isSome_iff_exists.mp (isSome_rootsExtent? (fun _ => rfl) h)

/-- The extent of some roots is that of the bodies that they stand for. -/
theorem bounds_rootsExtent? (hd : d.skeleton.Sound members) {roots : List Nat}
    (hroots : roots ⊆ d.roots) {e : Extent ℝ} (h : d.rootsExtent? roots = some e) :
    e.Bounds ((fun u => (d.body u).box) '' {u | d.representative u ∈ roots}) := by
  have hset : {b | b ∈ roots.flatMap d.boxesAt} =
      (fun u => (d.body u).box) '' {u | d.representative u ∈ roots} := by
    ext b
    simp only [Set.mem_ofPred_eq, List.mem_flatMap, boxesAt_eq, List.mem_map, Set.mem_image]
    constructor
    · rintro ⟨r, hr, u, hu, rfl⟩
      rw [mem_troop_iff hd (hroots hr)] at hu
      exact ⟨u, hu ▸ hr, rfl⟩
    · rintro ⟨u, hu, rfl⟩
      exact ⟨_, hu, u, (mem_troop_iff hd (hroots hu)).mpr rfl, rfl⟩
  rw [← hset]
  exact Extent.bounds_cover? h

section Bounds

variable (hd : d.skeleton.Sound members) {roots : List Nat} (hroots : roots ⊆ d.roots)
  {e : Extent ℝ} (h : d.rootsExtent? roots = some e) {u : Nat} (hu : d.representative u ∈ roots)
include hd hroots h hu

theorem minX_le_left : e.minX ≤ (d.body u).box.left :=
  (bounds_rootsExtent? hd hroots h).minX.2 ⟨_, ⟨u, hu, rfl⟩, rfl⟩

theorem right_le_maxX : (d.body u).box.right ≤ e.maxX :=
  (bounds_rootsExtent? hd hroots h).maxX.2 ⟨_, ⟨u, hu, rfl⟩, rfl⟩

end Bounds

/-! ## Drawings in a run -/

/-- What packing and tiling find in a drawing: its roots stand for all bodies that they move, and
no body is narrower or lower than 1. -/
structure Proper (members : Nat → List Nat) (d : Drawing ℝ) : Prop where
  sound : d.skeleton.Sound members
  rooted : d.skeleton.wiring.Rooted
  one_le_width : ∀ v < d.bodies.size, 1 ≤ (d.body v).box.width
  one_le_height : ∀ v < d.bodies.size, 1 ≤ (d.body v).box.height

theorem one_le_maxNum (x : ℝ) : 1 ≤ Scalar.maxNum x 1.0 := by
  rw [Scalar.maxNum_real]
  exact le_max_of_le_left (by norm_num)

theorem proper_build {g : Graph ℝ} {o : Options ℝ} (h : build g o = .ok d) :
    Proper (fun c => (d.ring c).order) d := by
  have hsides : ∀ b ∈ d.bodies, 1 ≤ b.box.width ∧ 1 ≤ b.box.height := by
    obtain ⟨⟨⟩, -, h⟩ := bind_eq_ok h
    obtain ⟨cs, -, h⟩ := bind_eq_ok h
    cases h
    intro b hb
    simp only [ofClusters, Array.mem_append, List.mem_toArray, List.mem_map] at hb
    rcases hb with ⟨p, -, rfl⟩ | ⟨p, -, rfl⟩
    · exact ⟨one_le_maxNum _, one_le_maxNum _⟩
    · norm_num [Body.atRest, Box.centered]
  have hbody : ∀ v < d.bodies.size, d.body v ∈ d.bodies := by
    intro v hv
    rw [body, Array.getD_eq_getD_getElem?, Array.getElem?_eq_getElem hv]
    exact Array.getElem_mem hv
  exact ⟨sound_build h, rooted_build h, fun v hv => (hsides _ (hbody v hv)).1,
    fun v hv => (hsides _ (hbody v hv)).2⟩

/-- Nothing in a run makes a drawing improper. -/
theorem Proper.of_course {d' : Drawing ℝ} (h : Proper members d)
    (hcourse : Run.Course Run.Moves d d') : Proper members d' := by
  have hevolves := hcourse.evolves h.sound
  have hsize : d'.bodies.size = d.bodies.size := congrArg Plan.bodyCount hevolves.plan_eq
  have hsides : ∀ v < d'.bodies.size, 1 ≤ (d'.body v).box.width ∧ 1 ≤ (d'.body v).box.height := by
    intro v hv
    rw [hsize] at hv
    rcases hcourse.resizes h.sound v with hsame | ⟨-, side, hside⟩
    · obtain ⟨hwidth, hheight⟩ := Prod.mk.injEq .. ▸ hsame
      rw [hwidth, hheight]
      exact ⟨h.one_le_width v hv, h.one_le_height v hv⟩
    · obtain ⟨hwidth, hheight⟩ := Prod.mk.injEq .. ▸ hside
      rw [hwidth, hheight]
      exact ⟨one_le_maxNum _, one_le_maxNum _⟩
  constructor
  case sound => exact hevolves.sound
  case rooted => exact hevolves.wiring_eq.symm ▸ h.rooted
  case one_le_width => exact fun v hv => (hsides v hv).1
  case one_le_height => exact fun v hv => (hsides v hv).2

end Drawing

/-- Every drawing that comes up in a run is proper. -/
theorem Run.Visits.proper {g : Graph ℝ} {o : Options ℝ} {built d : Drawing ℝ}
    (hbuild : Drawing.build g o = .ok built) (h : Visits (ofDrawing built o) d) :
    Drawing.Proper (fun c => (built.ring c).order) d :=
  (Drawing.proper_build hbuild).of_course (h.moves (Drawing.sound_build hbuild))

end RingLayout
