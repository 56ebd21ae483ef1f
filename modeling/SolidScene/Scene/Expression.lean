import SolidScene.Scene.Reader

/-!
# Expressions

The scene language. An expression stands in brackets: a tag, a name, the values that belong to the
name, and for an operation the expressions it works on. Values are checked as soon as they are
read, and a matrix or a combiner before the expressions behind it.
-/

namespace SolidScene

abbrev Scene : Type := Solid Float

/-- What the word after a tag is called in errors. -/
def Tag.expects : Tag → String
  | .object => "object name"
  | .operation => "operation name"

namespace Read

variable {α : Type}

def expectChar (expected : Char) (fault : Fault) : Read Unit := do
  let next ← readChar
  if next = some expected then return ()
  else reject fault (← tokenStart)

/-- Reads as `x` does, but reports every fault it finds as this one. -/
def withFault (fault : Fault) (x : Read α) : Read α := fun r =>
  match x r with
  | (.error (.rejected _ position), r') => (.error (.rejected fault position), r')
  | other => other

def readNonNegative (what : String) : Read Float := do
  let x ← readNumber what
  if Scalar.lt x 0.0 then reject (.negative what x) (← tokenStart)
  else return x

def readName : Read Name := do
  match (← readChar).bind Tag.ofChar? with
  | none => reject .missingTag (← tokenStart)
  | some tag =>
    let token ← readToken tag.expects
    match tag.lookup (lowercase token.text) with
    | some name => return name
    | none => reject (.unknownName tag (lowercase token.text)) token.position

def readObject : ObjectName → Read Scene
  | .sphere => do
    let center ← readVector "sphere center"
    let radius ← readNonNegative "sphere radius"
    return .sphere center radius
  | .cube => do
    let center ← readVector "cube center"
    let size ← readNonNegative "cube size"
    return .cube center size
  | .box => do
    let center ← readVector "box center"
    let size ← readVector "box size"
    if Scalar.lt size.minimum 0.0 then reject (.negativeSize size) (← tokenStart)
    else return .cuboid center size
  | .torus => do
    let center ← readVector "torus center"
    let majorRadius ← readNonNegative "torus major radius"
    let minorRadius ← readNonNegative "torus minor radius"
    return .torus center majorRadius minorRadius
  | .cylinder => do
    let center ← readVector "cylinder center"
    let radius ← readNonNegative "cylinder radius"
    let length ← readNonNegative "cylinder length"
    return .tube center radius length
  | .plane => do
    let point ← readVector "plane point"
    let normal ← readVector "plane normal"
    match Solid.halfSpace? point normal with
    | some s => return s
    | none => reject (.noDirection normal) (← tokenStart)

def readCombiner : Read Combiner := do
  let token ← withFault .badCombiner (readToken "boolean operator")
  match Combiner.ofWord? token.text with
  | some combiner => return combiner
  | none => reject .badCombiner token.position

/-- Reads the values of an operation and, with `child`, the expressions it works on. -/
def readOperation (child : Read Scene) : OperationName → Read Scene
  | .boolean => do
    let combiner ← readCombiner
    let a ← child
    let b ← child
    return .boolean combiner a b
  | .duplicate => do
    let period ← readVector "duplicate vector"
    let inner ← child
    return .duplicate period inner
  | .matrix => do
    let matrix ← readMatrix "matrix value"
    match Placement.ofMatrix? matrix with
    | some placement =>
      let inner ← child
      return .placed placement inner
    | none => reject .singularMatrix (← tokenStart)
  | .scale => do
    let factor ← readNumber "scale factor"
    if Scalar.eq factor 0.0 then reject .zeroFactor (← tokenStart)
    else
      let inner ← child
      return .scaled factor inner

def readBody (child : Read Scene) : Name → Read Scene
  | .object name => readObject name
  | .operation name => readOperation child name

/-- Reads an expression where `room` levels of nesting are left of the limit. -/
def expression (limit : Nat) : Nat → Read Scene
  | 0 => do
    let _ ← peekChar
    fail (.tooDeep limit (← position))
  | room + 1 => do
    expectChar '[' .missingOpening
    let name ← readName
    let scene ← readBody (expression limit room) name
    expectChar ']' .missingClosing
    return scene

/-- Reads one expression and leaves what follows it. Brackets may nest as deep as `limit`. -/
def construct (limit : Nat) : Read Scene := expression limit limit

/-- Refuses everything but blanks before the end of the input. -/
def expectEnd : Read Unit := do
  match ← peekChar with
  | none => return ()
  | some _ => reject .trailingInput (← position)

end Read

end SolidScene
