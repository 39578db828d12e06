import RingLayout.Box

/-! # Forces between boxes

Forces act between the points where the line of centers leaves the two boxes. Each function gives
the force on the first box; the second feels its negative.
-/

namespace RingLayout.Box

open Scalar

variable {K : Type} [Scalar K]

/-- Where the line from the center of `a` towards the center of `b` leaves `a`. -/
@[inline] def exitTowards (a b : Box K) : Point K :=
  let dx := b.centerX - a.centerX
  let dy := b.centerY - a.centerY
  if dx == 0.0 && dy == 0.0 then a.center
  else
    let reach (half d : K) : K := maxNum (half / Scalar.abs d) 0.0
    let t :=
      if dx == 0.0 then reach a.halfHeight dy
      else if dy == 0.0 then reach a.halfWidth dx
      else minNum (reach a.halfWidth dx) (reach a.halfHeight dy)
    ⟨a.centerX + t * dx, a.centerY + t * dy⟩

/-- The gap from `a` to `b` along the line of centers, with rounding noise removed. -/
@[inline] def gap (a b : Box K) : Point K :=
  let p := exitTowards a b
  let q := exitTowards b a
  let settle (d : K) : K := if Scalar.abs d < 1e-9 then 0.0 else d
  ⟨settle (q.x - p.x), settle (q.y - p.y)⟩

/-- The pull of a spring of the given natural length between two boxes. Intersecting boxes feel
none; a gap component below 1 counts as 1. -/
@[specialize] def springForce (a b : Box K) (ideal elasticity : K) : Point K :=
  if a.intersects b then .origin
  else
    let g := gap a b
    let lx := if Scalar.abs g.x < 1.0 then sign g.x else g.x
    let ly := if Scalar.abs g.y < 1.0 then sign g.y else g.y
    let len := sqrt (lx * lx + ly * ly)
    if len == 0.0 then .origin
    else
      let force := elasticity * (len - maxNum ideal 1.0)
      ⟨force * (lx / len), force * (ly / len)⟩

/-- How far two intersecting boxes overlap along one axis, the shorter way out included when one
extent holds the other. -/
@[inline] def overlap (lo hi lo' hi' : K) : K :=
  let shared := minNum hi hi' - maxNum lo lo'
  if lo ≤ lo' ∧ hi' ≤ hi then shared + minNum (lo' - lo) (hi - hi')
  else if lo' ≤ lo ∧ hi ≤ hi' then shared + minNum (lo - lo') (hi' - hi)
  else shared

/-- How far boxes move along each axis to part: they leave each other along the line of their
centers until one of the two overlaps is made up for, whichever takes less, and along the diagonal
where the centers agree. Centers side by side, or one above the other, need no slope. -/
@[inline] def partingShift (a b : Box K) (overlapX overlapY : K) : Point K :=
  let sameX := b.centerX == a.centerX
  let sameY := b.centerY == a.centerY
  let positive (d : K) : Bool := Scalar.isFinite d && decide (0.0 < d)
  let proper := positive overlapX && positive overlapY
  if sameX && !sameY && proper then ⟨0.0, overlapY⟩
  else if sameY && !sameX && proper then ⟨overlapX, 0.0⟩
  else
    let slope : K :=
      if sameY && sameX then 1.0
      else Scalar.abs ((b.centerY - a.centerY) / (b.centerX - a.centerX))
    let byX := overlapY / slope
    if overlapX < byX then ⟨overlapX, slope * overlapX⟩ else ⟨byX, overlapY⟩

/-- The displacement of `a` that, with its negative for `b`, separates two intersecting boxes
along the line of their centers and leaves `buffer` on each side. -/
@[inline] def separation (a b : Box K) (buffer : K) : Point K :=
  let dirX : K := if a.centerX < b.centerX then -1.0 else 1.0
  let dirY : K := if a.centerY < b.centerY then -1.0 else 1.0
  let move := partingShift a b (overlap a.left a.right b.left b.right)
    (overlap a.top a.bottom b.top b.bottom)
  ⟨dirX * (move.x / 2.0 + buffer), dirY * (move.y / 2.0 + buffer)⟩

/-- The push that drives boxes apart: `strength` over the squared gap, whose components count as
at least `minGap`. Intersecting boxes are separated instead. -/
@[specialize] def repulsionForce (a b : Box K) (strength minGap buffer : K) : Point K :=
  if a.intersects b then separation a b buffer
  else
    let g := gap a b
    let dx := if Scalar.abs g.x < minGap then sign g.x * minGap else g.x
    let dy := if Scalar.abs g.y < minGap then sign g.y * minGap else g.y
    let square := dx * dx + dy * dy
    let dist := sqrt square
    if square == 0.0 || dist == 0.0 then .origin
    else
      let f := strength / square
      ⟨-f * dx / dist, -f * dy / dist⟩

end RingLayout.Box
