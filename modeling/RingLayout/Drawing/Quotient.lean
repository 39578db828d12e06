import RingLayout.Adjacency
import RingLayout.Drawing

/-! # The drawing as its roots see it

A ring moves as one body. Links between rings and free bodies join the roots that stand for their
ends.
-/

namespace RingLayout.Drawing

variable {K : Type} [Scalar K]

/-- The root that stands for a body: the hub of its ring, or itself. -/
@[specialize] def representative (d : Drawing K) (v : Nat) : Nat :=
  match (d.body v).role.ring? with
  | some c => (d.ring c).hub
  | none => v

/-- The pairs of distinct roots joined by links, by their positions among the roots, one pair for
every link. -/
@[specialize] def rootPairs (d : Drawing K) : List (Nat × Nat) :=
  d.links.toList.filterMap fun l =>
    let a := d.representative l.source
    let b := d.representative l.target
    if a = b then none
    else
      match d.roots.idxOf? a, d.roots.idxOf? b with
      | some i, some j => some (i, j)
      | _, _ => none

/-- The components of the roots, by their positions among the roots. -/
@[specialize] def rootComponents (d : Drawing K) : List (List Nat) :=
  (Adjacency.ofPairs d.roots.length d.rootPairs).components

@[specialize] def rootIsConnected (d : Drawing K) : Bool :=
  decide (d.rootComponents.length ≤ 1)

@[specialize] def boundsCenter? (d : Drawing K) (members : List Nat) : Option (Point K) :=
  (Extent.cover? (members.map fun v => (d.body v).box)).map (·.center)

end RingLayout.Drawing
