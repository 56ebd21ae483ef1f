import SolidScene.Geometry.Vector

/-!
# Bounding boxes

Boxes along the axes, each given by its least and its greatest corner.
-/

namespace SolidScene

structure BoundingBox (α : Type) where
  lower : Vec3 α
  upper : Vec3 α
deriving Repr, BEq, DecidableEq

variable {α : Type} [Add α] [Sub α] [Mul α] [Neg α] [OfScientific α] [Scalar α]

namespace BoundingBox

/-- The cube around the origin that reaches `reach` along every axis. -/
def cube (reach : α) : BoundingBox α := ⟨Vec3.uniform (-reach), Vec3.uniform reach⟩

/-- The distance along each axis up to which a shape without end is sampled. -/
def unboundedReach : α := 100.0

def unbounded : BoundingBox α := cube unboundedReach

/-- The box that reaches `reach` from `center` along each axis. -/
def around (center reach : Vec3 α) : BoundingBox α := ⟨center - reach, center + reach⟩

/-- The box moved outward by a margin on every side. -/
def expand (b : BoundingBox α) (margin : α) : BoundingBox α :=
  ⟨b.lower - Vec3.uniform margin, b.upper + Vec3.uniform margin⟩

def union (a b : BoundingBox α) : BoundingBox α :=
  ⟨a.lower.least b.lower, a.upper.greatest b.upper⟩

def size (b : BoundingBox α) : Vec3 α := b.upper - b.lower

def center (b : BoundingBox α) : Vec3 α := (b.lower + b.upper).scale 0.5

/-- Whether a point is inside the box or on its surface. -/
def contains (b : BoundingBox α) (p : Vec3 α) : Bool :=
  Scalar.le b.lower.x p.x && Scalar.le b.lower.y p.y && Scalar.le b.lower.z p.z &&
    Scalar.le p.x b.upper.x && Scalar.le p.y b.upper.y && Scalar.le p.z b.upper.z

/-- The eight corners, the first coordinate changing fastest. -/
def corners (b : BoundingBox α) : List (Vec3 α) :=
  let l := b.lower
  let u := b.upper
  [⟨l.x, l.y, l.z⟩, ⟨u.x, l.y, l.z⟩, ⟨l.x, u.y, l.z⟩, ⟨u.x, u.y, l.z⟩,
    ⟨l.x, l.y, u.z⟩, ⟨u.x, l.y, u.z⟩, ⟨l.x, u.y, u.z⟩, ⟨u.x, u.y, u.z⟩]

/-- The box around points, started from corners no finite point can pass. -/
def hull (points : List (Vec3 α)) : BoundingBox α :=
  points.foldl (fun b p => ⟨b.lower.least p, b.upper.greatest p⟩)
    ⟨Vec3.uniform Scalar.largest, Vec3.uniform (-Scalar.largest)⟩

end BoundingBox

end SolidScene
