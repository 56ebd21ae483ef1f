import SolidScene.Number.Text
import SolidScene.Scene.Expression

/-!
# Canonical text

The text that a scene is written as: single spaces, sizes as full lengths, matrices of sixteen
values, the first word for each combiner, and numbers in their fewest digits. It is read back as
the same scene.
-/

namespace SolidScene.Scene

/-- The numbers of a node, in the order of its text. -/
def parameters : Scene → List Float
  | .sphere center radius => center.toList ++ [radius]
  | .box center halfExtents => center.toList ++ (halfExtents.scale 2.0).toList
  | .torus center majorRadius minorRadius => center.toList ++ [majorRadius, minorRadius]
  | .cylinder center radius halfLength => center.toList ++ [radius, halfLength * 2.0]
  | .plane point normal => point.toList ++ normal.toList
  | .boolean .. => []
  | .duplicate period _ => period.toList
  | .placed placement _ => placement.matrix.entries
  | .scaled factor _ => [factor]

/-- The words of a node that stand before its children. -/
def headWords (s : Scene) : List (List Char) :=
  s.kind.toList ::
    (match s with
      | .boolean combiner _ _ => [combiner.keyword.toList]
      | _ => []) ++
    s.parameters.map Number.shortest

def tag (s : Scene) : Tag := if s.isPrimitive then .object else .operation

/-- The characters of an expression up to its children. -/
def opening (s : Scene) : List Char :=
  '[' :: s.tag.char :: s.headWords.flatMap (' ' :: ·)

/-- The characters of the canonical text, put before `rest`. -/
def canonicalBefore (s : Scene) (rest : List Char) : List Char :=
  s.opening ++ match s with
    | .boolean _ a b => ' ' :: canonicalBefore a (' ' :: canonicalBefore b (']' :: rest))
    | .duplicate _ inner | .placed _ inner | .scaled _ inner =>
      ' ' :: canonicalBefore inner (']' :: rest)
    | _ => ']' :: rest

def canonical (s : Scene) : List Char := s.canonicalBefore []

theorem canonicalBefore_append (s : Scene) (rest more : List Char) :
    s.canonicalBefore (rest ++ more) = s.canonicalBefore rest ++ more := by
  have closing (rest : List Char) : ']' :: (rest ++ more) = (']' :: rest) ++ more := rfl
  have space (text : List Char) : ' ' :: (text ++ more) = (' ' :: text) ++ more := rfl
  induction s generalizing rest with
  | boolean combiner a b iha ihb =>
    simp only [canonicalBefore]
    rw [closing, ihb, space, iha, space, List.append_assoc]
  | duplicate period inner ih | placed placement inner ih | scaled factor inner ih =>
    simp only [canonicalBefore]
    rw [closing, ih, space, List.append_assoc]
  | _ => simp [canonicalBefore]

/-- What follows a canonical text has no part in it. -/
theorem canonicalBefore_eq (s : Scene) (rest : List Char) :
    s.canonicalBefore rest = s.canonical ++ rest := by
  rw [canonical, ← canonicalBefore_append, List.nil_append]

def text (s : Scene) : String := String.ofList s.canonical

end SolidScene.Scene
