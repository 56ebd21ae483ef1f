import SolidScene.Json.Token

/-!
# JSON values

Values are put together token by token. What stands open around the place being read is kept on a
stack, so values may nest as deep as they like.
-/

namespace SolidScene

/-- A JSON value. Members keep their order, and a key may occur more than once. A string that is
no text has none, and neither has such a key. -/
inductive Json where
  | null
  | bool (value : Bool)
  | number (literal : List Char)
  | string (text? : Option String)
  | array (items : List Json)
  | object (members : List (Option String × Json))
deriving Repr

namespace Json

/-- A member of an object: a key and a value. -/
abbrev Member : Type := Option String × Json

/-- What stands open around a value, with what came before it, the last first. -/
inductive Frame where
  | array (before : List Json)
  | object (before : List Member) (key : Option String)

/-- Where the reading of a value stands. -/
inductive State where
  | needValue (stack : List Frame)
  | arrayStart (stack : List Frame)
  | afterItem (items : List Json) (stack : List Frame)
  | objectStart (stack : List Frame)
  | needKey (members : List Member) (stack : List Frame)
  | needColon (members : List Member) (key : Option String) (stack : List Frame)
  | afterMember (members : List Member) (stack : List Frame)
  | complete (value : Json)

def State.deliver (value : Json) : List Frame → State
  | [] => .complete value
  | .array before :: stack => .afterItem (value :: before) stack
  | .object before key :: stack => .afterMember ((key, value) :: before) stack

def State.begin? (stack : List Frame) : Token → Option State
  | .beginArray => some (.arrayStart stack)
  | .beginObject => some (.objectStart stack)
  | .null => some (.deliver .null stack)
  | .bool value => some (.deliver (.bool value) stack)
  | .number literal => some (.deliver (.number literal) stack)
  | .string text? => some (.deliver (.string text?) stack)
  | _ => none

/-- One token further, or nothing where the token cannot stand. -/
def State.step? : State → Token → Option State
  | .needValue stack, t => begin? stack t
  | .arrayStart stack, .endArray => some (.deliver (.array []) stack)
  | .arrayStart stack, t => begin? (.array [] :: stack) t
  | .afterItem items stack, .comma => some (.needValue (.array items :: stack))
  | .afterItem items stack, .endArray => some (.deliver (.array items.reverse) stack)
  | .objectStart stack, .endObject => some (.deliver (.object []) stack)
  | .objectStart stack, .string key => some (.needColon [] key stack)
  | .needKey members stack, .string key => some (.needColon members key stack)
  | .needColon members key stack, .colon => some (.needValue (.object members key :: stack))
  | .afterMember members stack, .comma => some (.needKey members stack)
  | .afterMember members stack, .endObject => some (.deliver (.object members.reverse) stack)
  | _, _ => none

def ofTokens? (tokens : List Token) : Option Json :=
  match tokens.foldlM State.step? (.needValue []) with
  | some (.complete value) => some value
  | _ => none

def parse? (text : String) : Option Json := (Token.scan? text.toList).bind ofTokens?

/-- The whole number that a value is, where it is written without sign, point and exponent and
fits 64 bits. -/
def word? : Json → Option Nat
  | .number literal =>
    if literal.all Char.isDigit then
      let n := literal.foldl (fun n c => 10 * n + (c.toNat - '0'.toNat)) 0
      if n < UInt64.size then some n else none
    else none
  | _ => none

def text? : Json → Option String
  | .string text? => text?
  | _ => none

/-- The value of a key among members: nothing inside where it is missing, nothing at all where it
occurs twice. -/
def field? (members : List Member) (key : String) : Option (Option Json) :=
  match members.filter (·.1 == some key) with
  | [] => some none
  | [(_, value)] => some (some value)
  | _ => none

/-- The values of a record with these fields, which may be an object or an array of the values in
order. Fields may be missing and an object may have others. -/
def fields? (keys : List String) : Json → Option (List (Option Json))
  | .object members =>
    if members.all (·.1.isSome) then keys.mapM (field? members) else none
  | .array items =>
    if items.length ≤ keys.length then
      some (items.map some ++ List.replicate (keys.length - items.length) none)
    else none
  | _ => none

/-- The text of an object with these members, whose values are given as text. -/
def objectText (members : List (String × List Char)) : List Char :=
  let texts := members.map fun (key, value) => quote key ++ ':' :: value
  '{' :: (texts.intersperse [',']).flatten ++ ['}']

end Json

end SolidScene
