import SolidScene.Number.Binary64

/-!
# Scalars

The numbers that scenes are measured in. Geometry is written once over any scalar: scenes read
from text use doubles, and the same definitions over an ordered field with square roots are the
exact geometry that the doubles approximate.
-/

namespace SolidScene

/-- The operations that geometry needs beside `+`, `-`, `*`, `/` and decimal literals. -/
class Scalar (α : Type) where
  lt : α → α → Bool
  le : α → α → Bool
  /-- Equal as numbers. -/
  eq : α → α → Bool
  least : α → α → α
  greatest : α → α → α
  abs : α → α
  sqrt : α → α
  /-- What a division rounded toward zero leaves, with the sign of the dividend. -/
  remainder : α → α → α
  isFinite : α → Bool
  /-- A number that no finite scalar exceeds. -/
  largest : α

instance : Scalar Float where
  lt x y := decide (x < y)
  le x y := decide (x ≤ y)
  eq x y := x == y
  least := Binary64.least
  greatest := Binary64.greatest
  abs := Float.abs
  sqrt := Float.sqrt
  remainder := Binary64.remainder
  isFinite := Float.isFinite
  largest := Binary64.largest

variable {α : Type} [Add α] [Sub α] [Mul α] [OfScientific α] [Scalar α]

namespace Scalar

/-- The remainder of `x` by `y`, raised by `|y|` where it would be negative. -/
def euclideanRemainder (x y : α) : α :=
  let r := remainder x y
  if lt r 0.0 then r + abs y else r

/-- `x` held between `low` and `high`. -/
def clamp (x low high : α) : α :=
  let x := if lt x low then low else x
  if lt high x then high else x

/-- The point at `t` on the way from `a`, at 0, to `b`, at 1. -/
def interpolate (a b t : α) : α := a + (b - a) * t

end Scalar

end SolidScene
