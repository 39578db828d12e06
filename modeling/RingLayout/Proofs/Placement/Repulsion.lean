import Mathlib
import RingLayout.Proofs.Placement.Grid

/-! # Repulsion between placed roots

Roots repel those that their lists of near roots name. In exact arithmetic these lists are the same
up to their order, whether all pairs are compared or the grid is asked.
-/

open scoped List

namespace RingLayout.Placement

open Grid (IsNear)

section

variable {K : Type} [Scalar K]

/-- The pairs of items that repel each other, in the order in which they do. -/
def visits (p : Placement K) : List (Nat × Nat) :=
  (List.range p.items.size).flatMap fun i => (p.items.getD i blank).near.map fun j => (i, j)

/-- The pairs of near items that a comparison of all pairs finds. -/
def nearPairs (boxes : Array (Box K)) (range : K) : List (Nat × Nat) :=
  (List.range boxes.size).flatMap fun i => (nearAmongAll boxes range i).map fun j => (i, j)

theorem near_modify (items : Array (Placed K)) (a k : Nat) {f : Placed K → Placed K}
    (hf : ∀ i, (f i).near = i.near) :
    ((items.modify a f).getD k blank).near = (items.getD k blank).near := by
  simp only [Array.getD_eq_getD_getElem?, Array.getElem?_modify]
  split
  · cases items[k]? with
    | none => rfl
    | some i => exact hf i
  · rfl

theorem near_addRepulsion (s : ForceSettings K) (a : Nat) (items : Array (Placed K)) (b k : Nat) :
    ((addRepulsion s a items b).getD k blank).near = (items.getD k blank).near := by
  unfold addRepulsion
  refine (near_modify _ b k ?_).trans (near_modify items a k ?_) <;> exact fun _ => rfl

theorem near_addRepulsions (s : ForceSettings K) (a : Nat) (others : List Nat)
    (items : Array (Placed K)) (k : Nat) :
    ((others.foldl (addRepulsion s a) items).getD k blank).near = (items.getD k blank).near := by
  induction others generalizing items with
  | nil => rfl
  | cons b others ih => rw [List.foldl_cons, ih, near_addRepulsion]

/-- Repulsion goes through the pairs that the lists name when it begins. -/
theorem repel_eq (p : Placement K) : p.repel =
    { p with
      items := p.visits.foldl (fun items v => addRepulsion p.forces v.1 items v.2) p.items } := by
  -- repulsion writes forces while it reads lists, and leaves the lists alone
  have hloop : ∀ (l : List Nat) (items : Array (Placed K)),
      (∀ k, (items.getD k blank).near = (p.items.getD k blank).near) →
        l.foldl (fun items i => (items.getD i blank).near.foldl (addRepulsion p.forces i) items)
            items =
          l.foldl (fun items i => (p.items.getD i blank).near.foldl (addRepulsion p.forces i) items)
            items := by
    intro l
    induction l with
    | nil => exact fun _ _ => rfl
    | cons i l ih =>
        intro items hsame
        rw [List.foldl_cons, List.foldl_cons, hsame i]
        refine ih _ fun k => ?_
        rw [near_addRepulsions, hsame k]
  rw [repel, visits, List.foldl_flatMap, hloop _ _ fun _ => rfl]
  simp only [List.foldl_map]

theorem mem_nearAmongAll {boxes : Array (Box K)} {range : K} {i j : Nat} :
    j ∈ nearAmongAll boxes range i ↔ IsNear boxes range i j := by
  unfold nearAmongAll IsNear
  cases hi : boxes[i]? with
  | none => simp
  | some a =>
      simp only [List.mem_filter, List.mem_range'_1, Option.any_eq_true]
      constructor
      · rintro ⟨hrange, b, hb, hwithin⟩
        exact ⟨by omega, a, b, rfl, hb, hwithin⟩
      · rintro ⟨hij, a', b, hsame, hb, hwithin⟩
        cases hsame
        have hj := (Array.getElem?_eq_some_iff.mp hb).1
        exact ⟨by omega, b, hb, hwithin⟩

theorem nodup_nearAmongAll (boxes : Array (Box K)) (range : K) (i : Nat) :
    (nearAmongAll boxes range i).Nodup := by
  unfold nearAmongAll
  split
  · exact List.nodup_nil
  · exact List.Nodup.filter _ (List.nodup_range' ..)

theorem length_nearLists (boxes : Array (Box K)) (range : K) :
    (nearLists boxes range).length = boxes.size := by
  unfold nearLists
  dsimp only
  split
  · rw [List.length_map, List.length_range]
  · split <;> rw [List.length_map, List.length_range]

theorem size_renewNear (p : Placement K) : p.renewNear.items.size = p.items.size := by
  simp [renewNear, length_nearLists]

theorem near_renewNear (p : Placement K) {i : Nat} (hi : i < p.items.size) :
    (p.renewNear.items.getD i blank).near =
      (nearLists (p.items.map (·.box)) p.repulsionRange).getD i [] := by
  have hlist : i < (nearLists (p.items.map (·.box)) p.repulsionRange).length := by
    rw [length_nearLists, Array.size_map]
    exact hi
  simp [renewNear, Array.getD_eq_getD_getElem?, List.getD_eq_getElem?_getD, hi,
    hlist]

end

variable {boxes : Array (Box ℝ)} {range : ℝ} (hrange : 0 < range)
  (hsizes : ∀ b ∈ boxes, 0 ≤ b.width ∧ 0 ≤ b.height)
include hrange hsizes

/-- The grid finds the near items that a comparison of all pairs finds. -/
theorem laterNeighbors_perm {g : Grid ℝ} (hg : Grid.ofBoxes? boxes.toList range = some g)
    (i : Nat) : g.laterNeighbors boxes i ~ nearAmongAll boxes range i := by
  rw [List.perm_ext_iff_of_nodup (g.nodup_laterNeighbors boxes i)
    (nodup_nearAmongAll boxes range i)]
  intro j
  rw [Grid.mem_laterNeighbors (Grid.over_of_ofBoxes? hg) hrange hsizes, mem_nearAmongAll]

/-- Whatever their number is, the items have the near items that all pairs give. -/
theorem nearLists_perm : List.Forall₂ List.Perm (nearLists boxes range)
    ((List.range boxes.size).map (nearAmongAll boxes range)) := by
  unfold nearLists
  dsimp only
  split
  · exact List.forall₂_same.mpr fun _ _ => .refl _
  next hlarge =>
    have hne : boxes.toList ≠ [] := by
      intro hnil
      have hsize : boxes.size = 0 := by rw [← Array.length_toList, hnil, List.length_nil]
      rw [hsize] at hlarge
      exact hlarge (Nat.zero_le _)
    obtain ⟨g, hg⟩ := Grid.exists_ofBoxes? hrange hne
    rw [hg, List.forall₂_map_left_iff, List.forall₂_map_right_iff, List.forall₂_same]
    exact fun i _ => laterNeighbors_perm hrange hsizes hg i

theorem getD_nearLists_perm {i : Nat} (hi : i < boxes.size) :
    (nearLists boxes range).getD i [] ~ nearAmongAll boxes range i := by
  obtain ⟨hlength, hperm⟩ := List.forall₂_iff_get.mp (nearLists_perm hrange hsizes)
  have hlist : i < (nearLists boxes range).length := by rwa [length_nearLists]
  have hget := hperm i hlist (by rwa [← hlength])
  rw [List.getD_eq_getElem?_getD, List.getElem?_eq_getElem hlist, Option.getD_some]
  simpa using hget

/-- The pairs that repel each other once the lists are renewed are all near pairs. -/
theorem visits_renewNear_perm (p : Placement ℝ) (hboxes : p.items.map (·.box) = boxes)
    (hreach : p.repulsionRange = range) : p.renewNear.visits ~ nearPairs boxes range := by
  have hsize : p.items.size = boxes.size := by rw [← hboxes, Array.size_map]
  rw [visits, nearPairs, size_renewNear, hsize]
  refine List.Perm.flatMap_left _ fun i hi => ?_
  rw [List.mem_range] at hi
  rw [near_renewNear p (hsize ▸ hi), hboxes, hreach]
  exact (getD_nearLists_perm hrange hsizes hi).map _

omit hrange hsizes

/-- How the near items of boxes are found. -/
structure FindsNear (boxes : Array (Box ℝ)) (range : ℝ) : Prop where
  /-- Only where there is no box there is no grid. -/
  isSome_iff : (Grid.ofBoxes? boxes.toList range).isSome ↔ boxes ≠ #[]
  mem_iff : ∀ g, Grid.ofBoxes? boxes.toList range = some g →
    ∀ i j, j ∈ g.laterNeighbors boxes i ↔ IsNear boxes range i j
  nodup : ∀ g, Grid.ofBoxes? boxes.toList range = some g → ∀ i, (g.laterNeighbors boxes i).Nodup
  /-- The grid and the comparison of all pairs agree, for any number of boxes. -/
  perm : ∀ g, Grid.ofBoxes? boxes.toList range = some g →
    ∀ i, g.laterNeighbors boxes i ~ nearAmongAll boxes range i
  lists_perm : List.Forall₂ List.Perm (nearLists boxes range)
    ((List.range boxes.size).map (nearAmongAll boxes range))
  /-- Repulsion goes through the same pairs on both sides of the number of items up to which all
  pairs are compared. -/
  visits_perm : ∀ p : Placement ℝ, p.items.map (·.box) = boxes → p.repulsionRange = range →
    p.renewNear.visits ~ nearPairs boxes range
  repel_eq : ∀ p : Placement ℝ, p.repel =
    { p with items := p.visits.foldl (fun items v => addRepulsion p.forces v.1 items v.2) p.items }

/-- In exact arithmetic boxes of any sizes at any positions have their near boxes found. -/
theorem findsNear (hrange : 0 < range) (hsizes : ∀ b ∈ boxes, 0 ≤ b.width ∧ 0 ≤ b.height) :
    FindsNear boxes range := by
  constructor
  case isSome_iff =>
    constructor
    · rintro hsome rfl
      obtain ⟨g, hg⟩ := Option.isSome_iff_exists.mp hsome
      unfold Grid.ofBoxes? at hg
      split at hg <;> cases hg
    · intro hne
      have hboxes : boxes.toList ≠ [] := fun hnil => hne (Array.toList_eq_nil_iff.mp hnil)
      exact Option.isSome_iff_exists.mpr (Grid.exists_ofBoxes? hrange hboxes)
  case mem_iff =>
    exact fun g hg i j => Grid.mem_laterNeighbors (Grid.over_of_ofBoxes? hg) hrange hsizes
  case nodup => exact fun g _ => g.nodup_laterNeighbors boxes
  case perm => exact fun g hg => laterNeighbors_perm hrange hsizes hg
  case lists_perm => exact nearLists_perm hrange hsizes
  case visits_perm => exact visits_renewNear_perm hrange hsizes
  case repel_eq => exact Placement.repel_eq

/-- A square between two bars, one of them as far away as the range and the other at its side. -/
def squareAndBars : Array (Box ℝ) := #[⟨-1, 0, 0, 1⟩, ⟨0, 0, 1, 1⟩, ⟨1, 0, 0, 1⟩]

theorem findsNear_squareAndBars : FindsNear squareAndBars 1 := by
  refine findsNear one_pos fun b hb => ?_
  rw [squareAndBars, List.mem_toArray] at hb
  rcases List.mem_cons.mp hb with rfl | hb
  · norm_num
  · rcases List.mem_cons.mp hb with rfl | hb
    · norm_num
    · rw [List.mem_singleton.mp hb]
      norm_num

end RingLayout.Placement
