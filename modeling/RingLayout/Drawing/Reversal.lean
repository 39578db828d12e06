import RingLayout.Alignment
import RingLayout.Drawing.Rings

/-! # Reversing rings

A ring is read as a word: the letter of every member once for each of its outer links. The far
ends of these links, taken by their directions from the center, make a second word. Where the
word of the reversed ring aligns better with it than the word of the ring, the ring is reversed.
-/

namespace RingLayout.Drawing

variable {K : Type} [Scalar K]

@[specialize] def mayTestReversal (d : Drawing K) (c : Nat) : Bool :=
  let r := d.ring c
  r.mayReverse && decide (3 ≤ r.order.length) &&
    decide (r.order.length ≤ Alignment.alphabet.length) && decide (2 ≤ r.outerLinks.length)

@[specialize] def outerLinksOf (d : Drawing K) (v : Nat) : List Nat :=
  match (d.body v).seat? with
  | some s => s.outerLinks
  | none => []

/-- The far end of an outer link: its direction, the link, and the letter of the near end. -/
structure FarEnd (K : Type) where
  angle : K
  link : Nat
  letter : Char

/-- By direction, and by the number of the link where the directions are equal. -/
@[specialize] def FarEnd.le (a b : FarEnd K) : Bool :=
  if a.angle < b.angle then true
  else if b.angle < a.angle then false
  else decide (a.link ≤ b.link)

/-- The members of an order, each with its letter. -/
def lettered (order : List Nat) : List (Nat × Char) := order.zip Alignment.alphabet

/-- The word of lettered members: each letter once for every outer link. -/
@[specialize] def word (d : Drawing K) (members : List (Nat × Char)) : List Char :=
  members.flatMap fun (v, letter) => List.replicate (d.outerLinksOf v).length letter

/-- The far ends of the outer links of lettered members, seen from a center; directions are
measured from the angle `base`. -/
@[specialize] def farEnds (d : Drawing K) (center : Point K) (base : K)
    (members : List (Nat × Char)) : List (FarEnd K) :=
  members.flatMap fun (v, letter) =>
    (d.outerLinksOf v).map fun e =>
      let offset := (d.body ((d.link e).other v)).center.sub center
      ⟨normalizeAngle (Scalar.atan2 offset.y offset.x - base), e, letter⟩

/-- The letters of the far ends by their directions. -/
@[specialize] def farWord (d : Drawing K) (c : Nat) (members : List (Nat × Char)) : List Char :=
  let base := d.angleOf ((d.ring c).order.headD 0)
  ((d.farEnds (d.ringCenter c) base members).mergeSort FarEnd.le).map (·.letter)

/-- How well a ring and its reverse align with the far ends of its links; `none` for a ring
without members or with more members than letters. -/
@[specialize] def alignmentScores? (d : Drawing K) (c : Nat) : Option (Int × Int) :=
  let order := (d.ring c).order
  if order.isEmpty || decide (Alignment.alphabet.length < order.length) then none
  else
    let members := lettered order
    let reversed := match members with
      | [] => []
      | first :: rest => first :: rest.reverse
    let far := d.farWord c members
    some (Alignment.score (d.word members) far, Alignment.score (d.word reversed) far)

/-- Reverses a ring if that aligns it better, and says whether it did. No ring is reversed
twice. -/
@[specialize] def tryReverse (d : Drawing K) (c : Nat) : Bool × Drawing K :=
  if d.mayTestReversal c then
    match d.alignmentScores? c with
    | some (forward, reversed) =>
      if forward < reversed then
        (true, (d.reverseRing c).modifyRing c fun r => { r with mayReverse := false })
      else (false, d)
    | none => (false, d)
  else (false, d)

end RingLayout.Drawing
