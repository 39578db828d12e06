import Mathlib.Data.List.Rotate
import RingLayout.CyclicOrder

/-! # Runs in cyclic sequences

A run begins where a marked entry follows one without mark. The number of such places is the same
wherever a cyclic sequence is cut open. So it has one run at most if, cut open somewhere, it has
all marked entries in front.
-/

namespace RingLayout.CyclicOrder

variable {previous : Bool} {marks : List Bool}

/-- The number of marked entries that follow one without mark; `previous` is the mark before the
first entry. -/
def rises : Bool → List Bool → Nat
  | _, [] => 0
  | previous, m :: marks => (m && !previous).toNat + rises m marks

theorem rises_append (previous : Bool) (marks marks' : List Bool) :
    rises previous (marks ++ marks') =
      rises previous marks + rises (marks.getLastD previous) marks' := by
  induction marks generalizing previous with
  | nil => exact (Nat.zero_add _).symm
  | cons m marks ih => rw [List.cons_append, rises, rises, ih, List.getLastD_cons, Nat.add_assoc]

theorem rises_eq_countP (previous : Bool) (marks : List Bool) :
    rises previous marks = (List.range marks.length).countP fun i =>
      marks.getD i false && !(previous :: marks).getD i false := by
  induction marks generalizing previous with
  | nil => rfl
  | cons m marks ih =>
      rw [rises, ih, List.length_cons, List.range_succ_eq_map, List.countP_cons, List.countP_map,
        Nat.add_comm]
      congr 1
      cases m <;> cases previous <;> rfl

/-! ## Sequences with few runs -/

theorem rises_of_unmarked (h : ∀ m ∈ marks, m = false) : rises previous marks = 0 := by
  induction marks generalizing previous with
  | nil => rfl
  | cons m marks ih =>
      obtain ⟨rfl, hrest⟩ := List.forall_mem_cons.mp h
      exact (Nat.zero_add _).trans (ih hrest)

theorem rises_true_of_marked (h : ∀ m ∈ marks, m = true) : rises true marks = 0 := by
  induction marks with
  | nil => rfl
  | cons m marks ih =>
      obtain ⟨rfl, hrest⟩ := List.forall_mem_cons.mp h
      exact (Nat.zero_add _).trans (ih hrest)

theorem rises_le_one_of_marked (h : ∀ m ∈ marks, m = true) : rises previous marks ≤ 1 := by
  cases marks with
  | nil => exact Nat.zero_le 1
  | cons m marks =>
      obtain ⟨rfl, hrest⟩ := List.forall_mem_cons.mp h
      rw [rises, rises_true_of_marked hrest]
      exact Bool.toNat_le _

theorem unmarked_of_rises (h : rises false marks = 0) : ∀ m ∈ marks, m = false := by
  induction marks with
  | nil => simp
  | cons m marks ih =>
      cases m with
      | false => exact List.forall_mem_cons.mpr ⟨rfl, ih ((Nat.zero_add _).symm.trans h)⟩
      | true => exact absurd (Nat.eq_zero_of_add_eq_zero_right h) Nat.one_ne_zero

/-- Without a rise after a marked entry, all marked entries come first. -/
theorem exists_append_of_rises_true (h : rises true marks = 0) : ∃ first rest,
    marks = first ++ rest ∧ (∀ m ∈ first, m = true) ∧ ∀ m ∈ rest, m = false := by
  induction marks with
  | nil => exact ⟨[], [], rfl, by simp, by simp⟩
  | cons m marks ih =>
      have hrest : rises m marks = 0 := Nat.eq_zero_of_add_eq_zero_left h
      cases m with
      | false =>
          exact ⟨[], _, rfl, by simp, List.forall_mem_cons.mpr ⟨rfl, unmarked_of_rises hrest⟩⟩
      | true =>
          obtain ⟨first, rest, rfl, hfirst, hrest⟩ := ih hrest
          exact ⟨true :: first, rest, rfl, List.forall_mem_cons.mpr ⟨rfl, hfirst⟩, hrest⟩

/-- With one rise at most, the marked entries stand together. -/
theorem exists_append_of_rises_le_one (h : rises false marks ≤ 1) : ∃ before first rest,
    marks = before ++ (first ++ rest) ∧ (∀ m ∈ before, m = false) ∧ (∀ m ∈ first, m = true) ∧
      ∀ m ∈ rest, m = false := by
  induction marks with
  | nil => exact ⟨[], [], [], rfl, by simp, by simp, by simp⟩
  | cons m marks ih =>
      cases m with
      | false =>
          obtain ⟨before, first, rest, rfl, hbefore, hparts⟩ :=
            ih ((Nat.zero_add _).symm.trans_le h)
          exact ⟨false :: before, first, rest, rfl,
            List.forall_mem_cons.mpr ⟨rfl, hbefore⟩, hparts⟩
      | true =>
          have hrest : rises true marks = 0 := by
            rw [rises, Bool.not_false, Bool.and_true, Bool.toNat_true] at h
            omega
          obtain ⟨first, rest, rfl, hfirst, hrest⟩ := exists_append_of_rises_true hrest
          exact ⟨[], true :: first, rest, rfl, by simp,
            List.forall_mem_cons.mpr ⟨rfl, hfirst⟩, hrest⟩

/-! ## Cyclic sequences -/

/-- The number of rises in a cyclic sequence, in which the last entry stands before the first. -/
def cyclicRises (marks : List Bool) : Nat := rises (marks.getLastD false) marks

theorem cyclicRises_append_comm (marks marks' : List Bool) :
    cyclicRises (marks ++ marks') = cyclicRises (marks' ++ marks) := by
  rcases List.eq_nil_or_concat' marks with rfl | ⟨front, m, rfl⟩
  · rw [List.nil_append, List.append_nil]
  · rcases List.eq_nil_or_concat' marks' with rfl | ⟨front', m', rfl⟩
    · rw [List.nil_append, List.append_nil]
    · rw [cyclicRises, cyclicRises, rises_append, rises_append _ (front' ++ [m'])]
      simp only [List.getLastD_eq_getLast?, List.getLast?_append, List.getLast?_singleton,
        Option.some_or, Option.getD_some]
      exact Nat.add_comm _ _

theorem cyclicRises_rotate (marks : List Bool) (k : Nat) :
    cyclicRises (marks.rotate k) = cyclicRises marks := by
  rw [List.rotate_eq_drop_append_take_mod, cyclicRises_append_comm, List.take_append_drop]

/-- Unless all entries are marked, the runs are counted by the indices that they begin at. -/
theorem runs_eq_countP (h : false ∈ marks) : runs marks = (List.range marks.length).countP fun i =>
    marks.getD i false && !marks.getD ((i + marks.length - 1) % marks.length) false := by
  have hne : marks.isEmpty = false := List.isEmpty_eq_false_iff.mpr (List.ne_nil_of_mem h)
  have hall : marks.all id = false := List.all_eq_false.mpr ⟨false, h, by simp⟩
  rw [runs, hne, hall]
  rfl

theorem runs_eq_cyclicRises (h : false ∈ marks) : runs marks = cyclicRises marks := by
  have hpos : 0 < marks.length := List.length_pos_of_mem h
  rw [runs_eq_countP h, cyclicRises, rises_eq_countP]
  refine List.countP_congr fun i hi => ?_
  rw [List.mem_range] at hi
  -- the entry before the first is the last one
  have hbefore : marks.getD ((i + marks.length - 1) % marks.length) false =
      (marks.getLastD false :: marks).getD i false := by
    cases i with
    | zero =>
        rw [Nat.zero_add, Nat.mod_eq_of_lt (by omega), List.getD_cons_zero,
          List.getLastD_eq_getLast?, List.getLast?_eq_getElem?, List.getD_eq_getElem?_getD]
    | succ i =>
        rw [List.getD_cons_succ, show i + 1 + marks.length - 1 = i + marks.length by omega,
          Nat.add_mod_right, Nat.mod_eq_of_lt (by omega)]
  rw [hbefore]

/-- A cyclic sequence has one run at most if some rotation has all marked entries in front. -/
theorem runs_le_one_iff : runs marks ≤ 1 ↔ ∃ k first rest, marks.rotate k = first ++ rest ∧
    (∀ m ∈ first, m = true) ∧ ∀ m ∈ rest, m = false := by
  by_cases hfalse : false ∈ marks
  · rw [runs_eq_cyclicRises hfalse]
    constructor
    · intro hle
      -- after the rotation the sequence ends with an entry that is not marked
      obtain ⟨front, back, rfl⟩ := List.append_of_mem hfalse
      have hcut : (front ++ false :: back).rotate (front ++ [false]).length =
          back ++ (front ++ [false]) := by
        rw [List.append_cons, List.rotate_append_length_eq]
      rw [← cyclicRises_rotate _ (front ++ [false]).length, hcut, cyclicRises,
        ← List.append_assoc, List.getLastD_concat] at hle
      obtain ⟨before, first, rest, heq, hbefore, hfirst, hrest⟩ :=
        exists_append_of_rises_le_one hle
      rw [List.append_assoc] at heq
      refine ⟨(front ++ [false]).length + before.length, first, rest ++ before, ?_, hfirst, ?_⟩
      · rw [← List.rotate_rotate, hcut, heq, List.rotate_append_length_eq, List.append_assoc]
      · exact fun m hm => (List.mem_append.mp hm).elim (hrest m) (hbefore m)
    · rintro ⟨k, first, rest, heq, hfirst, hrest⟩
      have hne : rest ≠ [] := by
        rintro rfl
        rw [List.append_nil] at heq
        cases hfirst false (heq ▸ List.mem_rotate.mpr hfalse)
      rw [← cyclicRises_rotate marks k, heq, cyclicRises, rises_append, rises_of_unmarked hrest]
      exact rises_le_one_of_marked hfirst
  · have hall : ∀ m ∈ marks, m = true := fun m hm =>
      (Bool.eq_false_or_eq_true m).resolve_right fun hm' => hfalse (hm' ▸ hm)
    refine iff_of_true ?_ ⟨0, marks, [], by simp, hall, by simp⟩
    have hid : marks.all id = true := List.all_eq_true.mpr hall
    rw [runs, if_pos hid]
    split <;> simp

/-- The neighbours form one run at most if some rotation of the order has all of them in front. -/
theorem neighborRuns_le_one_iff {order neighbors : List Nat} {v : Nat} :
    neighborRuns order v neighbors ≤ 1 ↔ ∃ k first rest,
      (order.filter (· ≠ v)).rotate k = first ++ rest ∧ (∀ u ∈ first, u ∈ neighbors) ∧
        ∀ u ∈ rest, u ∉ neighbors := by
  rw [neighborRuns, runs_le_one_iff]
  constructor
  · rintro ⟨k, first, rest, heq, hfirst, hrest⟩
    rw [← List.map_rotate] at heq
    obtain ⟨first, rest, hrotate, rfl, rfl⟩ := List.map_eq_append_iff.mp heq
    refine ⟨k, first, rest, hrotate, ?_, ?_⟩
    · exact fun u hu => List.contains_iff_mem.mp (hfirst _ (List.mem_map_of_mem hu))
    · intro u hu hmem
      have hmark := hrest _ (List.mem_map_of_mem hu)
      rw [List.contains_iff_mem.mpr hmem] at hmark
      cases hmark
  · rintro ⟨k, first, rest, heq, hfirst, hrest⟩
    refine ⟨k, first.map neighbors.contains, rest.map neighbors.contains, ?_, ?_, ?_⟩
    · rw [← List.map_rotate, heq, List.map_append]
    · simpa using hfirst
    · simpa using hrest

end RingLayout.CyclicOrder
