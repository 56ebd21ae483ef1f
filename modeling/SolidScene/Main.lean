import SolidScene.CommandLine.Run

/-!
# The command line

Gathers what the command line can read, runs it, and prints how it ends.
-/

namespace SolidScene.CommandLine

open Source (Signal)

def causeOf : IO.Error → String
  | .noFileOrDirectory _ code details => s!"{details} (os error {code})"
  | .permissionDenied _ code details => s!"{details} (os error {code})"
  | .inappropriateType _ code details => s!"{details} (os error {code})"
  | e => toString e

/-- The bytes of a file, or why it cannot be read. -/
def readFile (place : String) : IO (Except String ByteArray) := do
  try return .ok (← IO.FS.readBinFile place)
  catch e => return .error (causeOf e)

/-- All that is left of a stream. -/
partial def readToEnd (stream : IO.FS.Stream) (before : ByteArray) : IO ByteArray := do
  let more ← stream.read 65536
  if more.isEmpty then return before else readToEnd stream (before ++ more)

def signalsOf (bytes : ByteArray) : List Signal := bytes.toList.map .byte

/-- The text of a file, or why it cannot be read. -/
def textOf : Except String ByteArray → Except String String
  | .error cause => .error cause
  | .ok bytes =>
    match String.fromUTF8? bytes with
    | some text => .ok text
    | none => .error "stream did not contain valid UTF-8"

/-- Whether there is something at a place, which need not be readable. -/
def isThere (place : String) : IO Bool := do
  try
    discard (IO.FS.realPath place)
    return true
  catch _ => return false

/-- The place of the usual settings file, if there is one. -/
def usualSettings : IO (Option String) := do
  match usualPlace? (← IO.getEnv "XDG_CONFIG_HOME") (← IO.getEnv "HOME") with
  | some place => return if ← isThere place then some place else none
  | none => return none

def surroundings (i : Invocation) : IO Surroundings := do
  let stdin ← if isStdin i.input then readToEnd (← IO.getStdin) .empty else pure .empty
  let scene ← if isStdin i.input then pure (.ok .empty) else readFile i.input
  let usual ← usualSettings
  let settings ← match i.config <|> usual with
    | some place => readFile place
    | none => pure (.error "")
  return {
    stdin := signalsOf stdin
    file := fun _ => scene.map signalsOf
    textFile := fun _ => textOf settings
    usualSettings := usual }

end SolidScene.CommandLine

open SolidScene.CommandLine in
def main (arguments : List String) : IO UInt32 := do
  let s ← match Invocation.ofArguments arguments with
    | .ok invocation => surroundings invocation
    | .error _ => pure ⟨[], fun _ => .error "", fun _ => .error "", none⟩
  let outcome := run s arguments
  IO.print outcome.stdout
  IO.eprint outcome.stderr
  return outcome.code.toUInt32
