import RingLayout.Box

/-! # Extents

The extent of some boxes is the smallest upright box around them, kept by its four sides.
-/

namespace RingLayout

/-- The four sides of an upright region. -/
structure Extent (K : Type) where
  minX : K
  minY : K
  maxX : K
  maxY : K

namespace Extent

variable {K : Type} [Scalar K]

@[inline] def ofBox (b : Box K) : Extent K := ⟨b.left, b.top, b.right, b.bottom⟩

/-- The extent grown by one more box. -/
@[inline] def grow (e : Extent K) (b : Box K) : Extent K :=
  ⟨Scalar.minNum e.minX b.left, Scalar.minNum e.minY b.top, Scalar.maxNum e.maxX b.right,
    Scalar.maxNum e.maxY b.bottom⟩

@[inline] def isFinite (e : Extent K) : Bool :=
  Scalar.isFinite e.minX && Scalar.isFinite e.minY && Scalar.isFinite e.maxX &&
    Scalar.isFinite e.maxY

/-- The extent of a list of boxes; `none` for no boxes and where a side is undefined. -/
@[specialize] def cover? : List (Box K) → Option (Extent K)
  | [] => none
  | b :: bs =>
    let e := bs.foldl grow (ofBox b)
    if e.isFinite then some e else none

@[inline] def width (e : Extent K) : K := e.maxX - e.minX

@[inline] def height (e : Extent K) : K := e.maxY - e.minY

@[inline] def center (e : Extent K) : Point K :=
  ⟨(e.minX + e.maxX) / 2.0, (e.minY + e.maxY) / 2.0⟩

end Extent

end RingLayout
