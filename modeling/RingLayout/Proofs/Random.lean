import Mathlib.Data.List.Perm.Subperm
import RingLayout.Random

/-! # Random draws

An index that is drawn is below its bound, whatever the state of the generator is and however the
numbers are rounded. Draws without replacement only move entries about, so that the entries drawn
and those left are the list drawn from.
-/

open scoped List

namespace RingLayout.Random

variable {K : Type} [Scalar K]

theorem nextIndex_lt (r : Random) {upper : Nat} (hupper : 0 < upper) :
    (nextIndex K r upper).1 < upper := by
  unfold nextIndex
  split
  · exact hupper
  · exact Nat.lt_of_le_of_lt (Nat.min_le_right _ _) (Nat.sub_lt hupper Nat.one_pos)

/-- An entry that is overwritten by the one in front of the list has changed places with it. -/
theorem cons_set_perm (first : Nat) {rest : List Nat} {j : Nat} (hj : j < rest.length) :
    rest.getD j first :: rest.set j first ~ first :: rest := by
  have hget : rest.getD j first = rest[j] := by
    rw [List.getD_eq_getElem?_getD, List.getElem?_eq_getElem hj, Option.getD_some]
  rw [hget]
  calc rest[j] :: rest.set j first
      ~ rest[j] :: first :: rest.eraseIdx j := (List.set_perm_cons_eraseIdx hj first).cons _
    _ ~ first :: rest[j] :: rest.eraseIdx j := .swap _ _ _
    _ ~ first :: rest := (List.getElem_cons_eraseIdx_perm hj).cons _

/-- The entries drawn and some others are those of the list. -/
theorem exists_drawFrom_append_perm (count : Nat) (l : List Nat) (r : Random) :
    ∃ left, (drawFrom K count l r).1 ++ left ~ l := by
  induction count generalizing l r with
  | zero => exact ⟨l, .refl l⟩
  | succ count ih =>
      cases l with
      | nil => exact ⟨[], .refl []⟩
      | cons first rest =>
          have hlt := nextIndex_lt (K := K) r (Nat.succ_pos rest.length)
          rw [drawFrom]
          dsimp only
          cases hj : (nextIndex K r (rest.length + 1)).1 with
          | zero =>
              obtain ⟨left, hperm⟩ := ih rest (nextIndex K r (rest.length + 1)).2
              exact ⟨left, hperm.cons first⟩
          | succ j =>
              rw [hj] at hlt
              obtain ⟨left, hperm⟩ := ih (rest.set j first) (nextIndex K r (rest.length + 1)).2
              exact ⟨left, (hperm.cons _).trans (cons_set_perm first (Nat.lt_of_succ_lt_succ hlt))⟩

theorem length_drawFrom (count : Nat) (l : List Nat) (r : Random) :
    (drawFrom K count l r).1.length = min count l.length := by
  induction count generalizing l r with
  | zero => exact (Nat.zero_min _).symm
  | succ count ih =>
      cases l with
      | nil => rfl
      | cons first rest =>
          rw [drawFrom]
          dsimp only
          split
          · rw [List.length_cons, ih, List.length_cons, Nat.add_min_add_right]
          · rw [List.length_cons, ih, List.length_set, List.length_cons, Nat.add_min_add_right]

theorem drawFrom_subperm (count : Nat) (l : List Nat) (r : Random) :
    (drawFrom K count l r).1 <+~ l := by
  obtain ⟨left, hperm⟩ := exists_drawFrom_append_perm (K := K) count l r
  exact (List.sublist_append_left _ left).subperm.trans hperm.subperm

theorem length_distinct (r : Random) (upper count : Nat) :
    (distinct K r upper count).1.length = min count upper := by
  rw [distinct, length_drawFrom, List.length_range]

theorem nodup_distinct (r : Random) (upper count : Nat) : (distinct K r upper count).1.Nodup := by
  obtain ⟨left, hperm⟩ := exists_drawFrom_append_perm (K := K) count (List.range upper) r
  exact (List.nodup_append.mp (hperm.nodup_iff.mpr List.nodup_range)).1

theorem lt_of_mem_distinct {r : Random} {upper count v : Nat}
    (hv : v ∈ (distinct K r upper count).1) : v < upper :=
  List.mem_range.mp ((drawFrom_subperm count (List.range upper) r).subset hv)

end RingLayout.Random
