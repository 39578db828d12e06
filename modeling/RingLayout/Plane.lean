import RingLayout.Scalar

/-! # The plane

Points double as vectors. Angles are normalized to one full turn, and a force on a point of a
circle splits into its pull along the circle and the rest.
-/

namespace RingLayout

structure Point (K : Type) where
  x : K
  y : K

namespace Point

variable {K : Type} [Scalar K]

def origin : Point K := ⟨0.0, 0.0⟩

@[inline] def add (a b : Point K) : Point K := ⟨a.x + b.x, a.y + b.y⟩

@[inline] def sub (a b : Point K) : Point K := ⟨a.x - b.x, a.y - b.y⟩

@[inline] def scale (a : Point K) (s : K) : Point K := ⟨a.x * s, a.y * s⟩

@[inline] def dot (a b : Point K) : K := a.x * b.x + a.y * b.y

@[inline] def norm (a : Point K) : K := Scalar.sqrt (a.dot a)

@[inline] def distance (a b : Point K) : K := (a.sub b).norm

/-- The point of a circle at an angle. -/
@[inline] def onCircle (center : Point K) (radius angle : K) : Point K :=
  ⟨center.x + radius * Scalar.cos angle, center.y + radius * Scalar.sin angle⟩

/-- Twice the signed area of the triangle `p q r`: positive when it turns left. -/
@[inline] def orientation (p q r : Point K) : K :=
  (q.x - p.x) * (r.y - p.y) - (q.y - p.y) * (r.x - p.x)

/-- Whether the segments `p q` and `r s` cross in a point inside both. -/
def segmentsCross (p q r s : Point K) : Bool :=
  let opposite (u v : K) : Bool :=
    decide (0.0 < u) && decide (v < 0.0) || decide (u < 0.0) && decide (0.0 < v)
  opposite (orientation r s p) (orientation r s q) &&
    opposite (orientation p q r) (orientation p q s)

/-- The pull of a force along the circle around `center` through `position`, counted towards
growing angles, and what is left of the force. At the center nothing pulls along a circle. -/
@[inline] def alongCircle (center position force : Point K) : K × Point K :=
  let arm := position.sub center
  let r := arm.norm
  if r < 1e-9 then (0.0, force)
  else
    let tangent : Point K := ⟨-arm.y / r, arm.x / r⟩
    let pull := force.dot tangent
    (pull, ⟨force.x - pull * tangent.x, force.y - pull * tangent.y⟩)

end Point

/-- The angle of `[0, 2π)` in the same direction; an undefined or infinite angle becomes 0. -/
@[inline] def normalizeAngle {K : Type} [Scalar K] (angle : K) : K :=
  if Scalar.isFinite angle then
    let a := Scalar.emod angle Scalar.turn
    if Scalar.turn ≤ a then 0.0 else a
  else 0.0

end RingLayout
