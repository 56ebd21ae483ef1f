import SolidScene.Solid.Basic

/-!
# Names

The words of the scene language: the tags that open an expression, the names that may follow each
tag, and the words for combiners. Several words may stand for the same thing. Tables hold them in
lower case.
-/

namespace SolidScene

/-- What kind of expression a tag opens. -/
inductive Tag where
  /-- `+`, a shape on its own. -/
  | object
  /-- `%`, an operation on other solids. -/
  | operation
deriving Repr, DecidableEq

def Tag.ofChar? : Char → Option Tag
  | '+' => some .object
  | '%' => some .operation
  | _ => none

def Tag.char : Tag → Char
  | .object => '+'
  | .operation => '%'

inductive ObjectName where
  | sphere
  | cube
  | box
  | torus
  | cylinder
  | plane
deriving Repr, DecidableEq

inductive OperationName where
  | boolean
  | duplicate
  | matrix
  | scale
deriving Repr, DecidableEq

def ObjectName.words : List (String × ObjectName) :=
  [("sphere", .sphere), ("cube", .cube), ("box", .box), ("torus", .torus),
    ("cylinder", .cylinder), ("plane", .plane)]

def OperationName.words : List (String × OperationName) :=
  [("boolean", .boolean), ("duplicate", .duplicate), ("matrix", .matrix), ("transrot", .matrix),
    ("scale", .scale)]

def Combiner.words : List (String × Combiner) :=
  [("add", .add), ("+", .add), ("sub", .subtract), ("-", .subtract), ("subtract", .subtract),
    ("union", .union), ("&", .union), ("blend", .blend), ("~", .blend), ("@", .blend)]

inductive Name where
  | object (name : ObjectName)
  | operation (name : OperationName)
deriving Repr, DecidableEq

/-- The words that may follow a tag, and what they name. -/
def Tag.words : Tag → List (String × Name)
  | .object => ObjectName.words.map fun (word, name) => (word, .object name)
  | .operation => OperationName.words.map fun (word, name) => (word, .operation name)

/-- What a word in lower case names after a tag. -/
def Tag.lookup (tag : Tag) (word : String) : Option Name := tag.words.lookup word

/-- A word with its ASCII letters in lower case. -/
def lowercase (word : String) : String := word.map Char.toLower

/-- The combiner that a word stands for, in any letter case. -/
def Combiner.ofWord? (word : String) : Option Combiner := Combiner.words.lookup (lowercase word)

end SolidScene
