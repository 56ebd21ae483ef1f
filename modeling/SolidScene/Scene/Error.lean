import SolidScene.Number.Text
import SolidScene.Scene.Name
import SolidScene.Text.Position

/-!
# Errors

Why a text is no scene. A fault says what is wrong with the text, an error says where, and one
function words each of them.
-/

namespace SolidScene

open Text (Position)

/-- What a fault concerns. -/
inductive Category where
  /-- A bracket or a tag is missing or wrong. -/
  | structural
  /-- A word is not known or a matrix cannot be undone. -/
  | semantic
  /-- A value cannot be read or is out of range. -/
  | malformed
deriving Repr, DecidableEq

def Category.label : Category → String
  | .structural => "syntax error"
  | .semantic => "semantic error"
  | .malformed => "malformed input"

/-- What stands in the place of an expected word. -/
inductive Found where
  | word (text : String)
  | char (c : Char)
  | nothing
deriving Repr, DecidableEq

def Found.message : Found → String
  | .word text => s!"'{text}'"
  | .char c => s!"'{c}'"
  | .nothing => "end of input"

/-- What is wrong with a text. -/
inductive Fault where
  | missingOpening
  | missingTag
  | missingClosing
  | trailingInput
  | unknownName (tag : Tag) (word : String)
  | badCombiner
  | singularMatrix
  | expected (what : String) (found : Found)
  | negative (what : String) (value : Float)
  | negativeSize (size : Vec3 Float)
  | noDirection (normal : Vec3 Float)
  | zeroFactor
  /-- A fault that a caller finds on its own, in the caller's words. -/
  | other (category : Category) (detail : String)
deriving Repr, DecidableEq

namespace Fault

def category : Fault → Category
  | .missingOpening | .missingTag | .missingClosing | .trailingInput => .structural
  | .unknownName .. | .badCombiner | .singularMatrix => .semantic
  | .expected .. | .negative .. | .negativeSize _ | .noDirection _ | .zeroFactor => .malformed
  | .other category _ => category

def numberText (x : Float) : String := String.ofList (Number.shortest x)

def vectorText (v : Vec3 Float) : String :=
  s!"[{numberText v.x}, {numberText v.y}, {numberText v.z}]"

def detail : Fault → String
  | .missingOpening => "expected '['"
  | .missingTag => "expected '+' or '%'"
  | .missingClosing => "expected ']'"
  | .trailingInput => "unexpected trailing input"
  | .unknownName .object word => s!"unknown object type: {word}"
  | .unknownName .operation word => s!"unknown operation type: {word}"
  | .badCombiner => "bad boolean operator"
  | .singularMatrix => "singular transform matrix"
  | .expected what found => s!"expected {what}, found {found.message}"
  | .negative what value => s!"{what} must be non-negative, found {numberText value}"
  | .negativeSize size => s!"box size must be non-negative, found {vectorText size}"
  | .noDirection normal => s!"plane normal must be non-zero, found {vectorText normal}"
  | .zeroFactor => "scale factor must be non-zero"
  | .other _ detail => detail

end Fault

/-- Why a text is no scene. -/
inductive SceneError where
  | rejected (fault : Fault) (position : Position)
  | tooDeep (limit : Nat) (position : Position)
  | unreadable (cause : String)
deriving Repr, DecidableEq

namespace SceneError

def detail? : SceneError → Option String
  | .rejected fault _ => some fault.detail
  | _ => none

def position? : SceneError → Option Position
  | .rejected _ position | .tooDeep _ position => some position
  | .unreadable _ => none

def message : SceneError → String
  | .rejected fault position => s!"{fault.category.label} at {position.message}: {fault.detail}"
  | .tooDeep limit position =>
    s!"input too deeply nested at {position.message} (limit is {limit})"
  | .unreadable cause => s!"IO error: {cause}"

end SceneError

end SolidScene
