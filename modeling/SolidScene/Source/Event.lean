/-!
# Sources

What a source of text delivers, one event per request: a character, a failure, or the end of the
input. A source that has nothing more to deliver answers every request with the end. An end in the
middle of the events is a pause: a later request goes on behind it.
-/

namespace SolidScene.Source

/-- One answer of a source of characters. -/
inductive Event where
  | char (c : Char)
  /-- The source could not be read. -/
  | failure (cause : String)
  /-- The input ends for now. -/
  | pause
deriving Repr, DecidableEq

/-- The events of a text in memory. -/
def ofText (text : String) : List Event := text.toList.map .char

/-- One answer of a source of bytes. -/
inductive Signal where
  | byte (b : UInt8)
  /-- The source could not be read. -/
  | failure (cause : String)
  /-- The read was interrupted before it had a result and is made again. -/
  | interruption
  /-- The input ends for now. -/
  | pause
deriving Repr, DecidableEq

end SolidScene.Source
