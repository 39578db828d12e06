import Mathlib.Algebra.Order.BigOperators.Group.List
import Mathlib.Order.Bounds.Basic
import Mathlib.Tactic.Ring
import RingLayout.Alignment

/-! # Best alignments

An alignment writes two sequences under each other in columns, with gaps allowed on both sides. The
score of two sequences is the greatest worth of their alignments. Every entry of a row of scores is
the greatest worth for a beginning of the second sequence, since an alignment without its last
column aligns shorter sequences.
-/

namespace RingLayout.Alignment

/-- A column of an alignment: a symbol of each sequence, or a symbol of one of them and a gap. -/
inductive Column (α : Type) where
  | pair (x y : α)
  | upper (x : α)
  | lower (y : α)

variable {α : Type}

namespace Column

def upper? : Column α → Option α
  | .pair x _ => some x
  | .upper x => some x
  | .lower _ => none

def lower? : Column α → Option α
  | .pair _ y => some y
  | .upper _ => none
  | .lower y => some y

/-- The column with its two lines exchanged. -/
def flip : Column α → Column α
  | .pair x y => .pair y x
  | .upper x => .lower x
  | .lower y => .upper y

/-- What a column adds to the worth of an alignment. -/
def worth [DecidableEq α] : Column α → Int
  | .pair x y => if x = y then 20 else -1
  | .upper _ => -2
  | .lower _ => -2

@[simp] theorem upper?_flip (column : Column α) : column.flip.upper? = column.lower? := by
  cases column <;> rfl

@[simp] theorem lower?_flip (column : Column α) : column.flip.lower? = column.upper? := by
  cases column <;> rfl

@[simp] theorem worth_flip [DecidableEq α] (column : Column α) :
    column.flip.worth = column.worth := by
  cases column with
  | pair x y => simp only [flip, worth, eq_comm]
  | _ => rfl

end Column

/-- The columns hold the first sequence in their upper line and the second in their lower one. -/
structure Aligns (columns : List (Column α)) (xs ys : List α) : Prop where
  upper_eq : columns.filterMap Column.upper? = xs
  lower_eq : columns.filterMap Column.lower? = ys

namespace Aligns

variable {columns : List (Column α)} {xs ys : List α} {x y : α}

theorem flip (h : Aligns columns xs ys) : Aligns (columns.map Column.flip) ys xs where
  upper_eq := by simpa [List.filterMap_map, Function.comp_def] using h.lower_eq
  lower_eq := by simpa [List.filterMap_map, Function.comp_def] using h.upper_eq

theorem concat_pair (h : Aligns columns xs ys) (x y : α) :
    Aligns (columns ++ [.pair x y]) (xs ++ [x]) (ys ++ [y]) := by
  constructor
  · rw [List.filterMap_append, h.upper_eq]
    rfl
  · rw [List.filterMap_append, h.lower_eq]
    rfl

theorem concat_upper (h : Aligns columns xs ys) (x : α) :
    Aligns (columns ++ [.upper x]) (xs ++ [x]) ys := by
  constructor
  · rw [List.filterMap_append, h.upper_eq]
    rfl
  · rw [List.filterMap_append, h.lower_eq]
    exact List.append_nil ys

theorem concat_lower (h : Aligns columns xs ys) (y : α) :
    Aligns (columns ++ [.lower y]) xs (ys ++ [y]) := by
  constructor
  · rw [List.filterMap_append, h.upper_eq]
    exact List.append_nil xs
  · rw [List.filterMap_append, h.lower_eq]
    rfl

/-- The last column of an alignment, and the alignment before it. -/
theorem cases_concat {column : Column α} (h : Aligns (columns ++ [column]) xs ys) :
    (∃ x y xs' ys', column = .pair x y ∧ xs = xs' ++ [x] ∧ ys = ys' ++ [y] ∧
        Aligns columns xs' ys') ∨
      (∃ x xs', column = .upper x ∧ xs = xs' ++ [x] ∧ Aligns columns xs' ys) ∨
        ∃ y ys', column = .lower y ∧ ys = ys' ++ [y] ∧ Aligns columns xs ys' := by
  obtain ⟨hupper, hlower⟩ := h
  rw [List.filterMap_append] at hupper hlower
  cases column with
  | pair x y => exact .inl ⟨x, y, _, _, rfl, hupper.symm, hlower.symm, rfl, rfl⟩
  | upper x =>
      rw [List.filterMap_cons_none rfl, List.filterMap_nil, List.append_nil] at hlower
      exact .inr (.inl ⟨x, _, rfl, hupper.symm, rfl, hlower⟩)
  | lower y =>
      rw [List.filterMap_cons_none rfl, List.filterMap_nil, List.append_nil] at hupper
      exact .inr (.inr ⟨y, _, rfl, hlower.symm, hupper, rfl⟩)

end Aligns

variable [DecidableEq α]

/-- The worth of an alignment. -/
def worth (columns : List (Column α)) : Int := (columns.map Column.worth).sum

theorem worth_concat (columns : List (Column α)) (column : Column α) :
    worth (columns ++ [column]) = worth columns + column.worth := by
  simp [worth]

theorem worth_flip (columns : List (Column α)) :
    worth (columns.map Column.flip) = worth columns := by
  simp [worth, Function.comp_def]

/-- What the alignments of two sequences are worth. -/
def worths (xs ys : List α) : Set Int := {w | ∃ columns, Aligns columns xs ys ∧ worth columns = w}

theorem worths_comm (xs ys : List α) : worths xs ys = worths ys xs := by
  have hsub : ∀ xs ys : List α, worths xs ys ⊆ worths ys xs := by
    rintro xs ys _ ⟨columns, h, rfl⟩
    exact ⟨columns.map Column.flip, h.flip, worth_flip columns⟩
  exact (hsub xs ys).antisymm (hsub ys xs)

theorem pairScore_eq (x y : α) : pairScore x y = (Column.pair x y).worth := by
  simp [pairScore, matchScore, mismatchScore, Column.worth]

/-! ## One more symbol -/

variable {xs ys : List α} {corner up left : Int}

theorem isGreatest_nil : IsGreatest (worths ([] : List α) []) 0 := by
  refine ⟨⟨[], ⟨rfl, rfl⟩, rfl⟩, ?_⟩
  rintro _ ⟨columns, h, rfl⟩
  rcases List.eq_nil_or_concat' columns with rfl | ⟨columns, column, rfl⟩
  · exact Int.le_refl 0
  · rcases h.cases_concat with ⟨_, _, _, _, -, hxs, -⟩ | ⟨_, _, -, hxs, -⟩ | ⟨_, _, -, hys, -⟩
    · simp at hxs
    · simp at hxs
    · simp at hys

/-- A further symbol against nothing stands over a gap. -/
theorem isGreatest_concat_nil (x : α) (h : IsGreatest (worths xs []) corner) :
    IsGreatest (worths (xs ++ [x]) []) (corner + gapScore) := by
  obtain ⟨⟨best, hbest, rfl⟩, hle⟩ := h
  refine ⟨⟨best ++ [.upper x], hbest.concat_upper x, worth_concat best _⟩, ?_⟩
  rintro _ ⟨columns, h, rfl⟩
  rcases List.eq_nil_or_concat' columns with rfl | ⟨columns, column, rfl⟩
  · simpa using h.upper_eq
  · rcases h.cases_concat with ⟨_, _, _, _, -, -, hys, -⟩ | ⟨x', xs', rfl, hxs, h⟩ |
      ⟨_, _, -, hys, -⟩
    · simp at hys
    · obtain ⟨rfl, -⟩ := List.append_singleton_inj.mp hxs
      rw [worth_concat]
      exact add_le_add_left (hle ⟨columns, h, rfl⟩) _
    · simp at hys

theorem isGreatest_nil_concat (y : α) (h : IsGreatest (worths [] ys) corner) :
    IsGreatest (worths [] (ys ++ [y])) (corner + gapScore) := by
  rw [worths_comm] at h ⊢
  exact isGreatest_concat_nil y h

/-- A best alignment with two further symbols ends in both of them, or in one of them at a gap. -/
theorem isGreatest_concat_concat {x y : α} (hcorner : IsGreatest (worths xs ys) corner)
    (hup : IsGreatest (worths xs (ys ++ [y])) up)
    (hleft : IsGreatest (worths (xs ++ [x]) ys) left) :
    IsGreatest (worths (xs ++ [x]) (ys ++ [y]))
      (max (max (corner + pairScore x y) (up + gapScore)) (left + gapScore)) := by
  rw [pairScore_eq]
  constructor
  · obtain ⟨corners, hcorners, rfl⟩ := hcorner.1
    obtain ⟨ups, hups, rfl⟩ := hup.1
    obtain ⟨lefts, hlefts, rfl⟩ := hleft.1
    refine max_rec' (· ∈ worths (xs ++ [x]) (ys ++ [y])) (max_rec' (· ∈ worths _ _) ?_ ?_) ?_
    · exact ⟨_, hcorners.concat_pair x y, worth_concat corners _⟩
    · exact ⟨_, hups.concat_upper x, worth_concat ups _⟩
    · exact ⟨_, hlefts.concat_lower y, worth_concat lefts _⟩
  · rintro _ ⟨columns, h, rfl⟩
    rcases List.eq_nil_or_concat' columns with rfl | ⟨columns, column, rfl⟩
    · simpa using h.upper_eq
    · rw [worth_concat]
      rcases h.cases_concat with ⟨x', y', xs', ys', rfl, hxs, hys, hrest⟩ |
        ⟨x', xs', rfl, hxs, hrest⟩ | ⟨y', ys', rfl, hys, hrest⟩
      · obtain ⟨rfl, rfl⟩ := List.append_singleton_inj.mp hxs
        obtain ⟨rfl, rfl⟩ := List.append_singleton_inj.mp hys
        have hle := hcorner.2 ⟨columns, hrest, rfl⟩
        exact le_max_of_le_left (le_max_of_le_left (add_le_add_left hle _))
      · obtain ⟨rfl, rfl⟩ := List.append_singleton_inj.mp hxs
        have hle := hup.2 ⟨columns, hrest, rfl⟩
        exact le_max_of_le_left (le_max_of_le_right (add_le_add_left hle _))
      · obtain ⟨rfl, rfl⟩ := List.append_singleton_inj.mp hys
        have hle := hleft.2 ⟨columns, hrest, rfl⟩
        exact le_max_of_le_right (add_le_add_left hle _)

/-! ## Rows -/

/-- The entries are the best scores of a sequence against what lies before, made longer by one
symbol after the other. -/
inductive Entries (xs : List α) : List α → List α → List Int → Prop
  | nil {before : List α} : Entries xs before [] []
  | cons {before rest : List α} {y : α} {entry : Int} {entries : List Int} :
      IsGreatest (worths xs (before ++ [y])) entry → Entries xs (before ++ [y]) rest entries →
      Entries xs before (y :: rest) (entry :: entries)

/-- A row has the best scores of a sequence against every beginning of another, the empty one in
front. -/
inductive Row (xs ys : List α) : List Int → Prop
  | cons {corner : Int} {above : List Int} : IsGreatest (worths xs []) corner →
      Entries xs [] ys above → Row xs ys (corner :: above)

theorem Entries.next {before rest : List α} {above : List Int} (x : α)
    (h : Entries xs before rest above) (hcorner : IsGreatest (worths xs before) corner)
    (hleft : IsGreatest (worths (xs ++ [x]) before) left) :
    Entries (xs ++ [x]) before rest (nextEntries x left corner rest above) := by
  induction h generalizing corner left with
  | nil => exact .nil
  | cons hup _ ih =>
      have hentry := isGreatest_concat_concat hcorner hup hleft
      exact .cons hentry (ih hup hentry)

theorem Row.next {row : List Int} (x : α) (h : Row xs ys row) :
    Row (xs ++ [x]) ys (nextRow ys row x) := by
  obtain ⟨hcorner, habove⟩ := h
  have hfirst := isGreatest_concat_nil x hcorner
  exact .cons hfirst (habove.next x hcorner hfirst)

/-- Against the empty sequence every symbol stands under a gap. -/
theorem entries_first {before rest : List α}
    (h : IsGreatest (worths [] before) (before.length * gapScore)) :
    Entries [] before rest ((List.range rest.length).map
      fun j : Nat => ((before.length : Int) + (j + 1)) * gapScore) := by
  induction rest generalizing before with
  | nil => exact .nil
  | cons y rest ih =>
      have hentry := isGreatest_nil_concat y h
      have hlength : (((before ++ [y]).length : Nat) : Int) = before.length + 1 := by simp
      have hrest := @ih (before ++ [y])
      rw [hlength, add_one_mul] at hrest
      rw [List.length_cons, List.range_succ_eq_map, List.map_cons, List.map_map]
      refine .cons ?_ ?_
      · convert hentry using 1
        simp [add_one_mul]
      · convert hrest hentry using 2
        funext j
        simp only [Function.comp_apply, Nat.succ_eq_add_one]
        push_cast
        ring

theorem row_first (ys : List α) : Row [] ys (firstRow ys) := by
  have hnone : IsGreatest (worths [] ([] : List α)) (([] : List α).length * gapScore) := by
    simpa using isGreatest_nil
  have hentries := @entries_first _ _ _ ys hnone
  rw [firstRow, List.range_succ_eq_map, List.map_cons, List.map_map]
  refine .cons (by simpa using isGreatest_nil) ?_
  convert hentries using 2
  funext j
  simp

/-- One symbol after the other, the rows stay right. -/
theorem Row.foldl {before row} (h : Row before ys row) :
    Row (before ++ xs) ys (xs.foldl (nextRow ys) row) := by
  induction xs generalizing before row with
  | nil => rwa [List.append_nil]
  | cons x xs ih => simpa using ih (h.next x)

theorem Entries.last {before rest : List α} {entries : List Int}
    (h : Entries xs before rest entries) (hleft : IsGreatest (worths xs before) left) :
    IsGreatest (worths xs (before ++ rest)) ((left :: entries).getLastD 0) := by
  induction h generalizing left with
  | nil => simpa using hleft
  | cons hentry _ ih => simpa using ih hentry

theorem isGreatest_lastEntry (xs ys : List α) : IsGreatest (worths xs ys) (score xs ys) := by
  have hrow : Row xs ys (xs.foldl (nextRow ys) (firstRow ys)) := (row_first ys).foldl
  rw [score]
  generalize xs.foldl (nextRow ys) (firstRow ys) = row at hrow
  cases hrow with
  | cons hcorner hentries => exact hentries.last hcorner

/-! ## Bounds -/

/-- No symbol is worth more than a match. -/
theorem Aligns.worth_le {columns : List (Column α)} (h : Aligns columns xs ys) :
    worth columns ≤ 20 * xs.length := by
  induction columns generalizing xs ys with
  | nil => exact Int.mul_nonneg (by decide) (Int.natCast_nonneg _)
  | cons column columns ih =>
      obtain ⟨rfl, -⟩ := h
      have hrest := ih ⟨rfl, rfl⟩
      have hworth : worth (column :: columns) = column.worth + worth columns := List.sum_cons
      rw [hworth]
      cases column with
      | pair x y =>
          have hpair : (Column.pair x y).worth ≤ 20 := by
            rw [Column.worth]
            split <;> decide
          simp only [List.filterMap_cons, Column.upper?, List.length_cons]
          omega
      | upper x =>
          simp only [List.filterMap_cons, Column.upper?, Column.worth, List.length_cons]
          omega
      | lower y =>
          simp only [List.filterMap_cons, Column.upper?, Column.worth]
          omega

/-- All symbols of both sequences may stand at gaps. -/
theorem gaps_mem_worths (xs ys : List α) : -2 * ((xs.length : Int) + ys.length) ∈ worths xs ys := by
  refine ⟨xs.map .upper ++ ys.map .lower, ⟨?_, ?_⟩, ?_⟩
  · simp [List.filterMap_map, Function.comp_def, Column.upper?]
  · simp [List.filterMap_map, Function.comp_def, Column.lower?]
  · simp [worth, Function.comp_def, Column.worth]
    ring

/-- The score of two sequences is the greatest worth of their alignments, and the same whichever
comes first. It lies between that of gaps alone and that of matches alone, as do all entries of the
rows before, which are scores of beginnings. -/
theorem isGreatest_score (xs ys : List α) :
    IsGreatest {w | ∃ columns, Aligns columns xs ys ∧ worth columns = w} (score xs ys) ∧
      score xs ys = score ys xs ∧
      -2 * ((xs.length : Int) + ys.length) ≤ score xs ys ∧
      score xs ys ≤ 20 * min (xs.length : Int) ys.length := by
  have hbest := isGreatest_lastEntry xs ys
  refine ⟨hbest, ?_, hbest.2 (gaps_mem_worths xs ys), ?_⟩
  · have hother := isGreatest_lastEntry ys xs
    rw [worths_comm] at hother
    exact hbest.unique hother
  · obtain ⟨columns, h, heq⟩ := hbest.1
    have hupper := h.worth_le
    have hlower := h.flip.worth_le
    rw [worth_flip] at hlower
    omega

/-- Two matches and a mismatch are better than gaps. -/
example : score "abx".toList "aby".toList = 39 := by decide +kernel

end RingLayout.Alignment
