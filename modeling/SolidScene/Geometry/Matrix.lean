import SolidScene.Geometry.Vector

/-!
# Matrices

Four by four matrices, kept as columns and written row by row. `adjugate` collects the signed
cofactors, `determinant` expands along the first column, and the inverse is the one divided by the
other. A `Placement` is a matrix that has a usable inverse, together with it.
-/

namespace SolidScene

/-- A four by four matrix as its columns. -/
structure Matrix4 (α : Type) where
  x : Vec4 α
  y : Vec4 α
  z : Vec4 α
  w : Vec4 α
deriving Repr, BEq, DecidableEq

variable {α : Type} [Add α] [Sub α] [Mul α] [Div α] [Neg α] [OfScientific α] [Scalar α]

namespace Matrix4

def all (p : α → Bool) (m : Matrix4 α) : Bool := m.x.all p && m.y.all p && m.z.all p && m.w.all p

def transpose (m : Matrix4 α) : Matrix4 α :=
  ⟨⟨m.x.x, m.y.x, m.z.x, m.w.x⟩, ⟨m.x.y, m.y.y, m.z.y, m.w.y⟩,
    ⟨m.x.z, m.y.z, m.z.z, m.w.z⟩, ⟨m.x.w, m.y.w, m.z.w, m.w.w⟩⟩

def ofRows (a b c d : Vec4 α) : Matrix4 α := transpose ⟨a, b, c, d⟩

/-- The sixteen entries, row by row. -/
def entries (m : Matrix4 α) : List α :=
  let t := m.transpose
  t.x.toList ++ t.y.toList ++ t.z.toList ++ t.w.toList

/-- The place where the matrix takes a point: a combination of its columns, without a division by
the fourth coordinate. -/
def transform (m : Matrix4 α) (p : Vec3 α) : Vec3 α :=
  (m.w + (m.z.scale p.z + (m.y.scale p.y + m.x.scale p.x))).toVec3

/-- The minor of two columns in the rows that `f` and `g` pick. -/
def minor (a b : Vec4 α) (f g : Vec4 α → α) : α := f a * g b - f b * g a

/-- The minors in two rows of the column pairs that complete each column. -/
def minors (m : Matrix4 α) (f g : Vec4 α → α) : Vec4 α :=
  ⟨minor m.z m.w f g, minor m.z m.w f g, minor m.y m.w f g, minor m.y m.z f g⟩

/-- The entries of one row that lead the expansion of each column's cofactors. -/
def leads (m : Matrix4 α) (f : Vec4 α → α) : Vec4 α := ⟨f m.y, f m.x, f m.x, f m.x⟩

/-- The cofactors of the matrix, each at the place of its entry mirrored in the diagonal. -/
def adjugate (m : Matrix4 α) : Matrix4 α :=
  let m23 := m.minors Vec4.z Vec4.w
  let m13 := m.minors Vec4.y Vec4.w
  let m12 := m.minors Vec4.y Vec4.z
  let m03 := m.minors Vec4.x Vec4.w
  let m02 := m.minors Vec4.x Vec4.z
  let m01 := m.minors Vec4.x Vec4.y
  let l0 := m.leads Vec4.x
  let l1 := m.leads Vec4.y
  let l2 := m.leads Vec4.z
  let l3 := m.leads Vec4.w
  let even (v : Vec4 α) : Vec4 α := ⟨v.x, -v.y, v.z, -v.w⟩
  let odd (v : Vec4 α) : Vec4 α := ⟨-v.x, v.y, -v.z, v.w⟩
  ⟨even (l1 * m23 - l2 * m13 + l3 * m12), odd (l0 * m23 - l2 * m03 + l3 * m02),
    even (l0 * m13 - l1 * m03 + l3 * m01), odd (l0 * m12 - l1 * m02 + l2 * m01)⟩

/-- The expansion along the first column, given the cofactors. -/
def expand (m cofactors : Matrix4 α) : α :=
  m.x.x * cofactors.x.x + m.x.y * cofactors.y.x + m.x.z * cofactors.z.x + m.x.w * cofactors.w.x

def determinant (m : Matrix4 α) : α := m.expand m.adjugate

def inverse (m : Matrix4 α) : Matrix4 α :=
  let a := m.adjugate
  let k := 1.0 / m.expand a
  ⟨a.x.scale k, a.y.scale k, a.z.scale k, a.w.scale k⟩

end Matrix4

/-- A matrix and the inverse that undoes it. -/
structure Placement (α : Type) where
  matrix : Matrix4 α
  inverse : Matrix4 α
deriving Repr, BEq, DecidableEq

/-- The placement by a matrix. There is none for a singular matrix, nor where the entries, the
determinant or the inverse are not finite. -/
def Placement.ofMatrix? (m : Matrix4 α) : Option (Placement α) :=
  let d := m.determinant
  if Scalar.eq d 0.0 || !Scalar.isFinite d || !m.all Scalar.isFinite then none
  else if m.inverse.all Scalar.isFinite then some ⟨m, m.inverse⟩ else none

end SolidScene
