/-!
# Positions

Places in a text by line and column, both counted from one. A column counts characters, and only a
line feed ends a line.
-/

namespace SolidScene.Text

/-- A place in a text. -/
structure Position where
  line : Nat
  column : Nat
deriving Repr, BEq, DecidableEq

namespace Position

/-- The first place of a text. -/
def start : Position := ⟨1, 1⟩

/-- The place after a character. -/
def advance (p : Position) (c : Char) : Position :=
  if c = '\n' then ⟨p.line + 1, 1⟩ else ⟨p.line, p.column + 1⟩

def message (p : Position) : String := s!"line {p.line}, column {p.column}"

end Position

end SolidScene.Text
