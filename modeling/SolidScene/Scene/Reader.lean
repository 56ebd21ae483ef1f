import SolidScene.Number.Literal
import SolidScene.Scene.Error
import SolidScene.Source.Event
import SolidScene.Text.Blank

/-!
# Reading words and values

A reader stands at a place in a source and holds at most one character ahead of it. Actions on a
reader pass characters, words and values. An action that fails leaves the reader where it stopped,
and reading can go on from there.
-/

namespace SolidScene

open Source (Event)
open Text (Position isBlank isWordChar)

/-- A place in a source of characters. -/
structure Reader where
  /-- What the source is still to deliver. -/
  unread : List Event
  /-- A character that the source has delivered and the reader has not passed. -/
  lookahead : Option Char
  /-- The place of the next character. -/
  position : Position
  /-- Where the last word or character to be read began. -/
  tokenStart : Position
deriving Repr, DecidableEq

namespace Reader

def ofEvents (events : List Event) : Reader := ⟨events, none, .start, .start⟩

/-- What the reader comes to next: the character it holds, then what the source delivers. -/
def upcoming (r : Reader) : List Event := (r.lookahead.map Event.char).toList ++ r.unread

def pass (r : Reader) (c : Char) : Reader :=
  { r with lookahead := none, position := r.position.advance c }

end Reader

/-- An action on a reader, with a result or an error. -/
def Read (α : Type) : Type := Reader → Except SceneError α × Reader

namespace Read

variable {α β : Type}

protected def pure (a : α) : Read α := fun r => (.ok a, r)

/-- One action after another; an error skips the rest. -/
protected def bind (x : Read α) (f : α → Read β) : Read β := fun r =>
  match x r with
  | (.ok a, r') => f a r'
  | (.error e, r') => (.error e, r')

instance : Monad Read where
  pure := Read.pure
  bind := Read.bind

def fail (e : SceneError) : Read α := fun r => (.error e, r)

def reject (fault : Fault) (position : Position) : Read α := fail (.rejected fault position)

def position : Read Position := fun r => (.ok r.position, r)

def tokenStart : Read Position := fun r => (.ok r.tokenStart, r)

/-- Notes that a word or a character begins here. -/
def mark : Read Position := fun r => (.ok r.position, { r with tokenStart := r.position })

/-- The next character, which stays ahead. -/
def peek : Read (Option Char) := fun r =>
  match r.upcoming with
  | [] => (.ok none, r)
  | .char c :: rest => (.ok (some c), { r with unread := rest, lookahead := some c })
  | .failure cause :: rest => (.error (.unreadable cause), { r with unread := rest })
  | .pause :: rest => (.ok none, { r with unread := rest })

def bump : Read (Option Char) := fun r =>
  match peek r with
  | (.ok (some c), r') => (.ok (some c), r'.pass c)
  | other => other

/-- The longest run of characters of a class at the front of some events, and the reader behind
it. The run also ends where the input does. -/
def runOf (p : Char → Bool) (tokenStart : Position) :
    List Event → Position → Except SceneError (List Char) × Reader
  | [], position => (.ok [], ⟨[], none, position, tokenStart⟩)
  | .char c :: rest, position =>
    if p c then
      let (run, r) := runOf p tokenStart rest (position.advance c)
      (run.map (c :: ·), r)
    else (.ok [], ⟨rest, some c, position, tokenStart⟩)
  | .failure cause :: rest, position =>
    (.error (.unreadable cause), ⟨rest, none, position, tokenStart⟩)
  | .pause :: rest, position => (.ok [], ⟨rest, none, position, tokenStart⟩)

def takeWhile (p : Char → Bool) : Read (List Char) := fun r =>
  runOf p r.tokenStart r.upcoming r.position

def skipBlanks : Read Unit := do
  let _ ← takeWhile isBlank

/-- The next character after blanks, which stays ahead. -/
def peekChar : Read (Option Char) := do
  skipBlanks
  peek

def readChar : Read (Option Char) := do
  skipBlanks
  let _ ← mark
  bump

structure Token where
  text : String
  position : Position
deriving Repr, DecidableEq

/-- Passes blanks and the word after them. `what` names the word in the error where a bracket or
the end of the input comes first. -/
def readToken (what : String) : Read Token := do
  skipBlanks
  let start ← mark
  let word ← takeWhile isWordChar
  if word.isEmpty then
    let found := match ← peek with
      | some c => .char c
      | none => .nothing
    reject (.expected what found) start
  else return ⟨String.ofList word, start⟩

def readNumber (what : String) : Read Float := do
  let token ← readToken what
  match Number.finite? token.text.toList with
  | some x => return x
  | none => reject (.expected what (.word token.text)) token.position

def readVector (what : String) : Read (Vec3 Float) := do
  let x ← readNumber what
  let y ← readNumber what
  let z ← readNumber what
  return ⟨x, y, z⟩

def readRow (what : String) : Read (Vec4 Float) := do
  let x ← readNumber what
  let y ← readNumber what
  let z ← readNumber what
  let w ← readNumber what
  return ⟨x, y, z, w⟩

/-- The last row of a matrix that moves points without a perspective. -/
def affineRow : Vec4 Float := ⟨0.0, 0.0, 0.0, 1.0⟩

/-- Reads the last row of a matrix, which an opening bracket in its place leaves out. -/
def readLastRow (what : String) : Read (Vec4 Float) := do
  if (← peekChar) = some '[' then return affineRow
  else readRow what

/-- Reads a matrix row by row. -/
def readMatrix (what : String) : Read (Matrix4 Float) := do
  let a ← readRow what
  let b ← readRow what
  let c ← readRow what
  let d ← readLastRow what
  return .ofRows a b c d

end Read

end SolidScene
