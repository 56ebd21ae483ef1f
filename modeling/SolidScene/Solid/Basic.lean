import SolidScene.Geometry.Matrix

/-!
# Solids

A scene is one solid: a shape on its own, or one or two solids combined, repeated, moved or scaled.
-/

namespace SolidScene

inductive Combiner where
  /-- Both solids together. -/
  | add
  | subtract
  /-- Both solids together. -/
  | union
  /-- Both solids together, with a rounded seam. -/
  | blend
deriving Repr, BEq, DecidableEq

def Combiner.keyword : Combiner → String
  | .add => "add"
  | .subtract => "sub"
  | .union => "union"
  | .blend => "blend"

inductive Solid (α : Type) where
  | sphere (center : Vec3 α) (radius : α)
  /-- A box along the axes; `halfExtents` reaches from its center to its faces. -/
  | box (center halfExtents : Vec3 α)
  /-- A ring around the vertical through its center. -/
  | torus (center : Vec3 α) (majorRadius minorRadius : α)
  /-- An upright cylinder; `halfLength` reaches from its center to its caps. -/
  | cylinder (center : Vec3 α) (radius halfLength : α)
  /-- The half space behind a point, against the normal. The normal is kept as it was given. -/
  | plane (point normal : Vec3 α)
  | boolean (combiner : Combiner) (a b : Solid α)
  /-- Copies of a solid, a period apart along every axis with a period other than zero. -/
  | duplicate (period : Vec3 α) (inner : Solid α)
  | placed (placement : Placement α) (inner : Solid α)
  | scaled (factor : α) (inner : Solid α)
deriving Repr, BEq, DecidableEq

variable {α : Type}

namespace Solid

section Constructors

variable [Add α] [Mul α] [Div α] [OfScientific α] [Scalar α]

def cuboid (center size : Vec3 α) : Solid α := .box center (size.scale 0.5)

/-- The box with the same edge length along every axis. -/
def cube (center : Vec3 α) (size : α) : Solid α := cuboid center (Vec3.uniform size)

/-- The cylinder of this length from cap to cap. -/
def tube (center : Vec3 α) (radius length : α) : Solid α := .cylinder center radius (length * 0.5)

/-- The half space behind a point, if the normal has a direction. -/
def halfSpace? (point normal : Vec3 α) : Option (Solid α) :=
  if normal.hasDirection then some (.plane point normal) else none

end Constructors

def kind : Solid α → String
  | .sphere .. => "sphere"
  | .box .. => "box"
  | .torus .. => "torus"
  | .cylinder .. => "cylinder"
  | .plane .. => "plane"
  | .boolean .. => "boolean"
  | .duplicate .. => "duplicate"
  | .placed .. => "matrix"
  | .scaled .. => "scale"

/-- The solids a solid is made of, in the order of its text. -/
def children : Solid α → List (Solid α)
  | .boolean _ a b => [a, b]
  | .duplicate _ inner | .placed _ inner | .scaled _ inner => [inner]
  | _ => []

def isPrimitive (s : Solid α) : Bool := s.children.isEmpty

def nodeCount : Solid α → Nat
  | .boolean _ a b => 1 + (a.nodeCount + b.nodeCount)
  | .duplicate _ inner | .placed _ inner | .scaled _ inner => 1 + inner.nodeCount
  | _ => 1

/-- The number of solids on the longest way down; a shape on its own has depth one. -/
def depth : Solid α → Nat
  | .boolean _ a b => 1 + max a.depth b.depth
  | .duplicate _ inner | .placed _ inner | .scaled _ inner => 1 + inner.depth
  | _ => 1

/-- All solids of the tree, each before its children. -/
def preorder (s : Solid α) : List (Solid α) :=
  s :: match s with
    | .boolean _ a b => a.preorder ++ b.preorder
    | .duplicate _ inner | .placed _ inner | .scaled _ inner => inner.preorder
    | _ => []

end Solid

end SolidScene
