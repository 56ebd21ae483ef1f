import SolidScene.Scalar

/-!
# Vectors

Points and directions in space by their three coordinates, and rows and columns of four. Every
operation goes coordinate by coordinate unless it says otherwise.
-/

namespace SolidScene

structure Vec3 (α : Type) where
  x : α
  y : α
  z : α
deriving Repr, BEq, DecidableEq

structure Vec4 (α : Type) where
  x : α
  y : α
  z : α
  w : α
deriving Repr, BEq, DecidableEq

variable {α : Type} [Add α] [Sub α] [Mul α] [Div α] [Neg α] [OfScientific α] [Scalar α]

open Scalar (sqrt lt)

namespace Vec3

def uniform (k : α) : Vec3 α := ⟨k, k, k⟩

def map (f : α → α) (v : Vec3 α) : Vec3 α := ⟨f v.x, f v.y, f v.z⟩

def zip (f : α → α → α) (v w : Vec3 α) : Vec3 α := ⟨f v.x w.x, f v.y w.y, f v.z w.z⟩

def all (p : α → Bool) (v : Vec3 α) : Bool := p v.x && p v.y && p v.z

def toList (v : Vec3 α) : List α := [v.x, v.y, v.z]

instance : Add (Vec3 α) := ⟨zip (· + ·)⟩

instance : Sub (Vec3 α) := ⟨zip (· - ·)⟩

def scale (v : Vec3 α) (k : α) : Vec3 α := v.map (· * k)

def divide (v : Vec3 α) (k : α) : Vec3 α := v.map (· / k)

def abs (v : Vec3 α) : Vec3 α := v.map Scalar.abs

def least (v w : Vec3 α) : Vec3 α := zip Scalar.least v w

def greatest (v w : Vec3 α) : Vec3 α := zip Scalar.greatest v w

def minimum (v : Vec3 α) : α := Scalar.least v.x (Scalar.least v.y v.z)

def maximum (v : Vec3 α) : α := Scalar.greatest v.x (Scalar.greatest v.y v.z)

def dot (v w : Vec3 α) : α := v.x * w.x + v.y * w.y + v.z * w.z

def length (v : Vec3 α) : α := sqrt (v.dot v)

/-- The factor that brings a vector to length one. -/
def unitFactor (v : Vec3 α) : α := 1.0 / v.length

/-- The direction of a vector: itself at length one. -/
def direction (v : Vec3 α) : Vec3 α := v.scale v.unitFactor

/-- Whether a vector has a direction: it is neither so short nor so long that the factor to length
one is lost. -/
def hasDirection (v : Vec3 α) : Bool :=
  Scalar.isFinite v.unitFactor && lt 0.0 v.unitFactor

end Vec3

/-- The length of the vector `(x, y)` in a plane. -/
def planarLength (x y : α) : α := sqrt (x * x + y * y)

namespace Vec4

def map (f : α → α) (v : Vec4 α) : Vec4 α := ⟨f v.x, f v.y, f v.z, f v.w⟩

def zip (f : α → α → α) (v w : Vec4 α) : Vec4 α := ⟨f v.x w.x, f v.y w.y, f v.z w.z, f v.w w.w⟩

def all (p : α → Bool) (v : Vec4 α) : Bool := p v.x && p v.y && p v.z && p v.w

def toList (v : Vec4 α) : List α := [v.x, v.y, v.z, v.w]

instance : Add (Vec4 α) := ⟨zip (· + ·)⟩

instance : Sub (Vec4 α) := ⟨zip (· - ·)⟩

instance : Mul (Vec4 α) := ⟨zip (· * ·)⟩

def scale (v : Vec4 α) (k : α) : Vec4 α := v.map (· * k)

def toVec3 (v : Vec4 α) : Vec3 α := ⟨v.x, v.y, v.z⟩

end Vec4

end SolidScene
