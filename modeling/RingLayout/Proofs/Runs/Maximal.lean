import Mathlib.Data.List.TakeWhile
import Mathlib.Data.Set.Card
import Mathlib.Order.Minimal
import RingLayout.Proofs.Runs

/-! # Maximal runs

A run is a stretch of a cyclic sequence with marked members only. Unless all members are marked, a
maximal run begins after a member without mark and goes on up to the next one, and nothing else
begins there. So there are as many maximal runs as places where runs begin.
-/

namespace RingLayout.CyclicOrder

variable {α : Type} {l : List α} {p : α → Bool}

/-- Marked members that stand together: cut open somewhere, the sequence has them in front. -/
def IsRun (l : List α) (p : α → Bool) (run : Set α) : Prop :=
  ∃ k first rest, l.rotate k = first ++ rest ∧ first ≠ [] ∧ (∀ u ∈ first, p u = true) ∧
    run = {u | u ∈ first}

def maximalRuns (l : List α) (p : α → Bool) : Set (Set α) := {run | Maximal (IsRun l p) run}

/-! ## Sequences without a beginning -/

theorem maximalRuns_of_unmarked (h : ∀ u ∈ l, p u = false) : maximalRuns l p = ∅ := by
  refine Set.eq_empty_of_forall_notMem fun run hmax => ?_
  obtain ⟨k, first, rest, heq, hne, hfirst, -⟩ := hmax.prop
  obtain ⟨u, hu⟩ := List.exists_mem_of_ne_nil first hne
  have hmem : u ∈ l := List.mem_rotate.mp (heq ▸ List.mem_append_left rest hu)
  exact Bool.false_ne_true ((h u hmem).symm.trans (hfirst u hu))

theorem IsRun.subset {run : Set α} (h : IsRun l p run) : run ⊆ {u | u ∈ l} := by
  obtain ⟨k, first, rest, heq, -, -, rfl⟩ := h
  exact fun u hu => List.mem_rotate.mp (heq ▸ List.mem_append_left rest hu)

theorem maximalRuns_of_marked (hne : l ≠ []) (h : ∀ u ∈ l, p u = true) :
    maximalRuns l p = {{u | u ∈ l}} := by
  have hrun : IsRun l p {u | u ∈ l} := ⟨0, l, [], by simp, hne, h, rfl⟩
  refine Set.eq_singleton_iff_unique_mem.mpr ⟨⟨hrun, fun _ hrun' _ => hrun'.subset⟩, ?_⟩
  exact fun run hmax => hmax.eq_of_subset hrun hmax.prop.subset

/-! ## Beginnings -/

/-- A marked member follows one without mark at an index. -/
def Begins (l : List α) (p : α → Bool) (i : Nat) : Prop :=
  i < l.length ∧ ∃ u w between, l.rotate i = u :: (between ++ [w]) ∧ p u = true ∧ p w = false

/-- The marked members from an index on. -/
def stretch (l : List α) (p : α → Bool) (i : Nat) : Set α := {u | u ∈ (l.rotate i).takeWhile p}

theorem rotate_eq_of_head? (hl : l.Nodup) {j k : Nat}
    (h : (l.rotate j).head? = (l.rotate k).head?) : l.rotate j = l.rotate k := by
  rcases l.eq_nil_or_concat' with rfl | ⟨front, last, rfl⟩
  · rw [List.rotate_nil, List.rotate_nil]
  · generalize hl' : front ++ [last] = l at *
    have hpos : 0 < l.length := by rw [← hl']; simp
    rw [← List.rotate_mod l j, ← List.rotate_mod l k] at h ⊢
    rw [List.head?_rotate (Nat.mod_lt _ hpos), List.head?_rotate (Nat.mod_lt _ hpos)] at h
    rw [(List.getElem?_inj (Nat.mod_lt _ hpos) hl).mp h]

/-- A run that contains a member where runs begin begins there. -/
theorem Begins.rotate_eq {i k : Nat} (hl : l.Nodup) (hi : Begins l p i) {first rest : List α}
    (hcut : l.rotate k = first ++ rest) (hfirst : ∀ u ∈ first, p u = true)
    (hsub : stretch l p i ⊆ {u | u ∈ first}) : l.rotate k = l.rotate i := by
  obtain ⟨-, u, w, between, heq, hu, hw⟩ := hi
  have hmem : u ∈ first := by
    refine hsub ?_
    rw [stretch, heq, List.takeWhile_cons_of_pos hu]
    exact List.mem_cons_self
  obtain ⟨before, behind, rfl⟩ := List.append_of_mem hmem
  have hcut' : l.rotate (k + before.length) = u :: (behind ++ rest ++ before) := by
    rw [← List.rotate_rotate, hcut, List.append_assoc, List.rotate_append_length_eq,
      List.cons_append, List.cons_append]
  have hsame : l.rotate (k + before.length) = l.rotate i :=
    rotate_eq_of_head? hl (by rw [hcut', heq]; rfl)
  -- what stands before the member in the run would end with the one without mark
  rcases before.eq_nil_or_concat' with rfl | ⟨front, last, rfl⟩
  · exact hsame
  · have hlast : last = w := by
      have hends := hcut'.symm.trans (hsame.trans heq)
      rw [List.cons.injEq, ← List.append_assoc] at hends
      exact (List.append_singleton_inj.mp hends.2).2
    have hmarked := hfirst last (by simp)
    rw [hlast, hw] at hmarked
    cases hmarked

theorem Begins.isRun {i : Nat} (hi : Begins l p i) : IsRun l p (stretch l p i) := by
  obtain ⟨-, u, w, between, heq, hu, -⟩ := hi
  refine ⟨i, _, _, List.takeWhile_append_dropWhile.symm, ?_, fun _ => List.mem_takeWhile_imp, rfl⟩
  rw [heq, List.takeWhile_cons_of_pos hu]
  exact List.cons_ne_nil _ _

theorem subset_stretch {k : Nat} {first rest : List α} (hcut : l.rotate k = first ++ rest)
    (hfirst : ∀ u ∈ first, p u = true) : {u | u ∈ first} ⊆ stretch l p k := by
  intro u hu
  rw [stretch, hcut, List.takeWhile_append_of_pos hfirst]
  exact List.mem_append_left _ hu

theorem Begins.maximal {i : Nat} (hl : l.Nodup) (hi : Begins l p i) :
    stretch l p i ∈ maximalRuns l p := by
  refine ⟨hi.isRun, ?_⟩
  rintro _ ⟨k, first, rest, hcut, -, hfirst, rfl⟩ hsub
  have hsame := hi.rotate_eq hl hcut hfirst hsub
  exact subset_stretch (hsame ▸ hcut) hfirst

theorem injOn_stretch (hl : l.Nodup) : Set.InjOn (stretch l p) {i | Begins l p i} := by
  intro i hi j hj heq
  have hsame := hi.rotate_eq (k := j) hl List.takeWhile_append_dropWhile.symm
    (fun _ => List.mem_takeWhile_imp) heq.subset
  have hmod := hl.rotate_congr (List.ne_nil_of_length_pos (Nat.zero_lt_of_lt hi.1)) _ _ hsame
  rw [Nat.mod_eq_of_lt hi.1, Nat.mod_eq_of_lt hj.1] at hmod
  exact hmod.symm

/-- The member before a maximal run has no mark, for with it in front the run would be longer. -/
theorem unmarked_of_maximal (hl : l.Nodup) {k : Nat} {first between : List α} {last : α}
    (hcut : l.rotate k = first ++ (between ++ [last])) (hfirst : ∀ u ∈ first, p u = true)
    (hmax : {u | u ∈ first} ∈ maximalRuns l p) : p last = false := by
  rw [← Bool.not_eq_true]
  intro hlast
  have hcut' : l.rotate (k + (first ++ between).length) = last :: first ++ between := by
    rw [← List.rotate_rotate, hcut, ← List.append_assoc, List.rotate_append_length_eq]
    rfl
  have hlonger : IsRun l p {u | u ∈ last :: first} :=
    ⟨_, _, _, hcut', List.cons_ne_nil _ _, List.forall_mem_cons.mpr ⟨hlast, hfirst⟩, rfl⟩
  have hmem : last ∈ first :=
    hmax.le_of_ge hlonger (fun _ hu => List.mem_cons_of_mem _ hu) List.mem_cons_self
  have hnodup : (l.rotate k).Nodup := List.nodup_rotate.mpr hl
  rw [hcut, List.nodup_append'] at hnodup
  exact hnodup.2.2 hmem (by simp)

/-- Unless all members are marked, every maximal run begins somewhere. -/
theorem exists_begins {run : Set α} (hl : l.Nodup) (hopen : ∃ u ∈ l, p u = false)
    (hmax : run ∈ maximalRuns l p) : ∃ i, Begins l p i ∧ stretch l p i = run := by
  obtain ⟨k, first, rest, hcut, hne, hfirst, rfl⟩ := hmax.prop
  obtain ⟨w, hw, hunmarked⟩ := hopen
  have hpos : 0 < l.length := List.length_pos_of_mem hw
  rw [← List.rotate_mod] at hcut
  have hrest : rest ≠ [] := by
    rintro rfl
    rw [← List.mem_rotate (n := k % l.length), hcut, List.append_nil] at hw
    exact Bool.false_ne_true (hunmarked.symm.trans (hfirst w hw))
  obtain ⟨u, others, rfl⟩ := List.exists_cons_of_ne_nil hne
  obtain ⟨between, last, rfl⟩ := (rest.eq_nil_or_concat').resolve_left hrest
  have hbegins : Begins l p (k % l.length) := by
    refine ⟨Nat.mod_lt _ hpos, u, last, others ++ between, ?_, hfirst u List.mem_cons_self,
      unmarked_of_maximal hl hcut hfirst hmax⟩
    rw [hcut, List.cons_append, List.append_assoc]
  refine ⟨k % l.length, hbegins, ?_⟩
  exact (hmax.eq_of_subset hbegins.isRun (subset_stretch hcut hfirst)).symm

theorem maximalRuns_eq_image (hl : l.Nodup) (hopen : ∃ u ∈ l, p u = false) :
    maximalRuns l p = stretch l p '' {i | Begins l p i} := by
  ext run
  constructor
  · exact exists_begins hl hopen
  · rintro ⟨i, hi, rfl⟩
    exact hi.maximal hl

/-! ## The number of runs -/

theorem getLast?_rotate {i : Nat} (hi : i < l.length) :
    (l.rotate i).getLast? = l[(i + l.length - 1) % l.length]? := by
  have hsum : l.length - 1 + i = i + l.length - 1 := by omega
  rw [List.getLast?_eq_getElem?, List.length_rotate, List.getElem?_rotate (by omega), hsum]

theorem exists_ends_iff {m : List α} :
    (∃ u w between, m = u :: (between ++ [w]) ∧ p u = true ∧ p w = false) ↔
      ((m.head?.map p).getD false && !(m.getLast?.map p).getD false) = true := by
  cases m with
  | nil => simp
  | cons u rest =>
      rcases rest.eq_nil_or_concat' with rfl | ⟨between, w, rfl⟩
      · simp
      · simp [List.getLast?_cons]

theorem begins_iff {i : Nat} (hi : i < l.length) :
    Begins l p i ↔ ((l.map p).getD i false &&
      !(l.map p).getD ((i + l.length - 1) % l.length) false) = true := by
  rw [Begins, and_iff_right hi, exists_ends_iff, List.head?_rotate hi, getLast?_rotate hi,
    List.getD_eq_getElem?_getD, List.getD_eq_getElem?_getD, List.getElem?_map, List.getElem?_map]

theorem runs_of_marked {marks : List Bool} (hne : marks ≠ []) (h : ∀ m ∈ marks, m = true) :
    runs marks = 1 := by
  have hall : marks.all id = true := List.all_eq_true.mpr h
  rw [runs, if_neg (by simpa using hne), if_pos hall]

/-- The runs that are counted are the maximal runs. -/
theorem runs_map_eq_encard (hl : l.Nodup) : (runs (l.map p) : ℕ∞) = (maximalRuns l p).encard := by
  by_cases hopen : ∃ u ∈ l, p u = false
  · have hbegins : {i | Begins l p i} = ↑((List.range l.length).filter fun i =>
        (l.map p).getD i false &&
          !(l.map p).getD ((i + l.length - 1) % l.length) false).toFinset := by
      ext i
      rw [Finset.mem_coe, List.mem_toFinset, List.mem_filter, List.mem_range]
      exact ⟨fun h => ⟨h.1, (begins_iff h.1).mp h⟩, fun h => (begins_iff h.1).mpr h.2⟩
    rw [maximalRuns_eq_image hl hopen, (injOn_stretch hl).encard_image, hbegins,
      Set.encard_coe_eq_coe_finsetCard, List.toFinset_card_of_nodup (List.nodup_range.filter _),
      runs_eq_countP (List.mem_map.mpr hopen), List.length_map, List.countP_eq_length_filter]
  · have hmarked : ∀ u ∈ l, p u = true := fun u hu =>
      (Bool.eq_false_or_eq_true (p u)).resolve_right fun hu' => hopen ⟨u, hu, hu'⟩
    by_cases hne : l = []
    · subst hne
      rw [maximalRuns_of_unmarked (by simp), Set.encard_empty]
      rfl
    · rw [maximalRuns_of_marked hne hmarked, Set.encard_singleton,
        runs_of_marked (by simpa using hne) (by simpa using hmarked)]
      rfl

/-- What the number of runs of neighbours says about an order without one member. -/
structure CountsRuns (others neighbors : List Nat) (count : Nat) : Prop where
  /-- It is the number of maximal runs. -/
  eq_encard : (count : ℕ∞) = (maximalRuns others neighbors.contains).encard
  of_all : others ≠ [] → (∀ u ∈ others, u ∈ neighbors) → count = 1
  of_none : (∀ u ∈ others, u ∉ neighbors) → count = 0
  /-- It is at most 1 just if some rotation has all neighbours in front. -/
  le_one_iff : count ≤ 1 ↔ ∃ k first rest, others.rotate k = first ++ rest ∧
    (∀ u ∈ first, u ∈ neighbors) ∧ ∀ u ∈ rest, u ∉ neighbors

theorem countsRuns {order : List Nat} (horder : order.Nodup) (v : Nat) (neighbors : List Nat) :
    CountsRuns (order.erase v) neighbors (neighborRuns order v neighbors) := by
  have herase : order.erase v = order.filter (· ≠ v) := by
    rw [horder.erase_eq_filter]
    exact List.filter_congr fun u _ => Bool.eq_iff_iff.mpr (by simp)
  have hcount : (neighborRuns order v neighbors : ℕ∞) =
      (maximalRuns (order.erase v) neighbors.contains).encard := by
    rw [herase]
    exact runs_map_eq_encard (horder.filter _)
  constructor
  case eq_encard => exact hcount
  case le_one_iff =>
    rw [herase]
    exact neighborRuns_le_one_iff
  case of_all =>
    intro hne hall
    rw [maximalRuns_of_marked hne (by simpa using hall), Set.encard_singleton] at hcount
    exact_mod_cast hcount
  case of_none =>
    intro hnone
    rw [maximalRuns_of_unmarked (by simpa using hnone), Set.encard_empty] at hcount
    exact_mod_cast hcount

/-- The last two members and the first one stand together across the place where the order is cut
open, and one more stands by itself. -/
theorem countsRuns_acrossTheCut : [0, 1, 2, 3, 4, 5, 6].Nodup ∧
    CountsRuns ([0, 1, 2, 3, 4, 5, 6].erase 2) [6, 3, 0, 5, 2]
      (neighborRuns [0, 1, 2, 3, 4, 5, 6] 2 [6, 3, 0, 5, 2]) ∧
    neighborRuns [0, 1, 2, 3, 4, 5, 6] 2 [6, 3, 0, 5, 2] = 2 :=
  ⟨by decide, countsRuns (by decide) 2 [6, 3, 0, 5, 2], by decide⟩

end RingLayout.CyclicOrder
