import SolidScene.Solid.Basic

/-!
# Signed distance

The distance from a point to the surface of a solid: negative inside, positive outside and zero on
the surface.
-/

namespace SolidScene

variable {α : Type} [Add α] [Sub α] [Mul α] [Div α] [Neg α] [OfScientific α] [Scalar α]

open Scalar (least greatest lt clamp interpolate euclideanRemainder)

/-- The reach of the rounded seam between blended solids. -/
def blendRadius : α := 0.25

/-- The distance to two combined solids from the distances to each. -/
def Combiner.combine : Combiner → α → α → α
  | .add, a, b | .union, a, b => least a b
  | .subtract, a, b => greatest a (-b)
  | .blend, a, b =>
    let h := clamp (0.5 + 0.5 * (b - a) / blendRadius) 0.0 1.0
    interpolate b a h - blendRadius * h * (1.0 - h)

/-- Whether a solid repeats along an axis with this period. -/
def repeats (period : α) : Bool := lt 0.0 (Scalar.abs period)

/-- The coordinate brought into the period around zero; an axis without a period keeps it. -/
def foldAxis (x period : α) : α :=
  if repeats period then
    let s := Scalar.abs period
    euclideanRemainder (x + s * 0.5) s - s * 0.5
  else x

/-- The distance from a point to the box around zero, from the overhang over each face: the length
of the overhangs outside it, the greatest of them inside. -/
def overhangDistance (q : Vec3 α) : α :=
  (q.greatest (Vec3.uniform 0.0)).length + least q.maximum 0.0

/-- The same for a shape that turns around an axis, from the overhangs over its mantle and its
caps. -/
def planarOverhangDistance (x y : α) : α :=
  least (greatest x y) 0.0 + planarLength (greatest x 0.0) (greatest y 0.0)

namespace Solid

/-- The signed distance from a point to the surface. -/
def distance : Solid α → Vec3 α → α
  | .sphere center radius, p => (p - center).length - radius
  | .box center halfExtents, p => overhangDistance ((p - center).abs - halfExtents)
  | .torus center majorRadius minorRadius, p =>
    let q := p - center
    planarLength (planarLength q.x q.z - majorRadius) q.y - minorRadius
  | .cylinder center radius halfLength, p =>
    let q := p - center
    planarOverhangDistance (Scalar.abs (planarLength q.x q.z) - radius)
      (Scalar.abs q.y - halfLength)
  | .plane point normal, p => (p - point).dot normal.direction
  | .boolean combiner a b, p => combiner.combine (a.distance p) (b.distance p)
  | .duplicate period inner, p => inner.distance (Vec3.zip foldAxis p period)
  | .placed placement inner, p => inner.distance (placement.inverse.transform p)
  | .scaled factor inner, p => inner.distance (p.divide factor) * Scalar.abs factor

end Solid

end SolidScene
