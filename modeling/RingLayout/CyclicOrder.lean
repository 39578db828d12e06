/-! # Cyclic orders

The members of a ring in the order of growing angles. The last member is followed by the first.
-/

namespace RingLayout.CyclicOrder

/-- The index after `i`, cyclically. -/
def next (order : List Nat) (i : Nat) : Nat := (i + 1) % max order.length 1

theorem next_lt {order : List Nat} (h : order ≠ []) (i : Nat) : next order i < order.length := by
  have hpos : 0 < order.length := List.length_pos_iff.mpr h
  rw [next, Nat.max_eq_left hpos]
  exact Nat.mod_lt _ hpos

def lastIndex? (v : Nat) : List Nat → Option Nat
  | [] => none
  | u :: order =>
    match lastIndex? v order with
    | some i => some (i + 1)
    | none => if u = v then some 0 else none

/-- Whether `b` follows `a` within half a turn; `none` if either is missing or both are the same
member. Exactly half a turn counts in both directions. -/
def precedes? (order : List Nat) (a b : Nat) : Option Bool :=
  match lastIndex? a order, lastIndex? b order with
  | some i, some j =>
    if i = j then none
    else some (decide ((j + order.length - i) % order.length * 2 ≤ order.length))
  | _, _ => none

def exchange (order : List Nat) (i j : Nat) : List Nat :=
  match order[i]?, order[j]? with
  | some u, some v => (order.set i v).set j u
  | _, _ => order

/-- The order read backwards from its first member. -/
def reverse : List Nat → List Nat
  | [] => []
  | first :: rest => first :: rest.reverse

theorem reverse_perm (order : List Nat) : (reverse order).Perm order := by
  cases order with
  | nil => exact .refl _
  | cons first rest => exact (List.reverse_perm rest).cons first

theorem reverse_reverse (order : List Nat) : reverse (reverse order) = order := by
  cases order with
  | nil => rfl
  | cons first rest => simp only [reverse, List.reverse_reverse]

/-- The number of maximal runs of marked entries in a cyclic sequence. -/
def runs (marks : List Bool) : Nat :=
  if marks.isEmpty then 0
  else if marks.all id then 1
  else
    (List.range marks.length).countP fun i =>
      marks.getD i false && !marks.getD ((i + marks.length - 1) % marks.length) false

/-- The number of runs that `neighbors` form in the order without `v`. -/
def neighborRuns (order : List Nat) (v : Nat) (neighbors : List Nat) : Nat :=
  runs ((order.filter (· ≠ v)).map neighbors.contains)

end RingLayout.CyclicOrder
