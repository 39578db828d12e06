/-! # Global alignment of sequences

The score of the best way to write two sequences under each other, with gaps allowed on both
sides. Rings of up to 52 members are read as words over the alphabet below.
-/

namespace RingLayout.Alignment

def matchScore : Int := 20

def mismatchScore : Int := -1

def gapScore : Int := -2

/-- The letters that label the members of a ring. -/
def alphabet : List Char := "abcdefghijklmnopqrstuvwxyzABCDEFGHIJKLMNOPQRSTUVWXYZ".toList

def letter? (i : Nat) : Option Char := alphabet[i]?

variable {α : Type} [BEq α]

def pairScore (x y : α) : Int := if x == y then matchScore else mismatchScore

/-- The rest of a row of best scores: `left` is the entry before it, `corner` the entry above
that one, and `above` the rest of the previous row. -/
def nextEntries (x : α) (left corner : Int) : List α → List Int → List Int
  | y :: ys, up :: above =>
    let entry := max (max (corner + pairScore x y) (up + gapScore)) (left + gapScore)
    entry :: nextEntries x entry up ys above
  | _, _ => []

/-- The row of best scores after one more symbol `x` of the first sequence. -/
def nextRow (ys : List α) (row : List Int) (x : α) : List Int :=
  match row with
  | [] => []
  | corner :: above =>
    let first := corner + gapScore
    first :: nextEntries x first corner ys above

/-- The row of best scores of the empty sequence against every beginning of `ys`. -/
def firstRow (ys : List α) : List Int :=
  (List.range (ys.length + 1)).map fun j : Nat => (j : Int) * gapScore

/-- The best score of a global alignment of two sequences. -/
def score (xs ys : List α) : Int :=
  (xs.foldl (nextRow ys) (firstRow ys)).getLastD 0

end RingLayout.Alignment
