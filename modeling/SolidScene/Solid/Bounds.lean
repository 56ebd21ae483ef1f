import SolidScene.Geometry.BoundingBox
import SolidScene.Solid.Distance

/-!
# Bounds

A box around each solid. Shapes without end and repeated axes reach as far as they are sampled.
-/

namespace SolidScene.Solid

variable {α : Type} [Add α] [Sub α] [Mul α] [Div α] [Neg α] [OfScientific α] [Scalar α]

open BoundingBox (around unbounded unboundedReach hull)

/-- The box around copies of a box: without end along every axis that repeats. -/
def repeatedBounds (period : Vec3 α) (b : BoundingBox α) : BoundingBox α :=
  let pick (far period own : α) : α := if repeats period then far else own
  ⟨Vec3.zip (pick (-unboundedReach)) period b.lower, Vec3.zip (pick unboundedReach) period b.upper⟩

/-- The box around a solid. -/
def bounds : Solid α → BoundingBox α
  | .sphere center radius => around center (Vec3.uniform radius)
  | .box center halfExtents => around center halfExtents
  | .torus center majorRadius minorRadius =>
    let r := majorRadius + minorRadius
    around center ⟨r, minorRadius, r⟩
  | .cylinder center radius halfLength => around center ⟨radius, halfLength, radius⟩
  | .plane .. => unbounded
  | .boolean .add a b | .boolean .union a b => a.bounds.union b.bounds
  | .boolean .subtract a _ => a.bounds
  | .boolean .blend a b => (a.bounds.union b.bounds).expand blendRadius
  | .duplicate period inner => repeatedBounds period inner.bounds
  | .placed placement inner => hull (inner.bounds.corners.map placement.matrix.transform)
  | .scaled factor inner =>
    let a := inner.bounds.lower.scale factor
    let b := inner.bounds.upper.scale factor
    ⟨a.least b, a.greatest b⟩

end SolidScene.Solid
