import RingLayout.Plane

/-! # Upright boxes

A box is anchored at its top left corner. Boxes stand for nodes, for the hubs of rings and for the
reported bounds of groups.
-/

namespace RingLayout

/-- An upright box. -/
structure Box (K : Type) where
  left : K
  top : K
  width : K
  height : K

namespace Box

variable {K : Type} [Scalar K]

@[inline] def centered (center : Point K) (width height : K) : Box K :=
  ⟨center.x - width / 2.0, center.y - height / 2.0, width, height⟩

@[inline] def centerX (b : Box K) : K := b.left + b.width / 2.0

@[inline] def centerY (b : Box K) : K := b.top + b.height / 2.0

@[inline] def center (b : Box K) : Point K := ⟨b.centerX, b.centerY⟩

@[inline] def halfWidth (b : Box K) : K := b.width / 2.0

@[inline] def halfHeight (b : Box K) : K := b.height / 2.0

@[inline] def right (b : Box K) : K := b.left + b.width

@[inline] def bottom (b : Box K) : K := b.top + b.height

@[inline] def diagonal (b : Box K) : K := Scalar.sqrt (b.width * b.width + b.height * b.height)

@[inline] def meanSide (b : Box K) : K := (b.width + b.height) / 2.0

@[inline] def recenter (b : Box K) (center : Point K) : Box K :=
  centered center b.width b.height

@[inline] def translate (b : Box K) (d : Point K) : Box K :=
  { b with left := b.left + d.x, top := b.top + d.y }

/-- Whether a point lies in the box, its border included. -/
def contains (b : Box K) (p : Point K) : Bool :=
  decide (b.left ≤ p.x) && decide (p.x ≤ b.right) && decide (b.top ≤ p.y) && decide (p.y ≤ b.bottom)

/-- Whether the interiors of two boxes meet; a shared border alone is no intersection. -/
@[inline] def intersects (a b : Box K) : Bool :=
  decide (a.left < b.right) && decide (b.left < a.right) && decide (a.top < b.bottom) &&
    decide (b.top < a.bottom)

end Box

end RingLayout
