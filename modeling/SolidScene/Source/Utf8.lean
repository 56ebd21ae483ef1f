import SolidScene.Source.Event

/-!
# Characters from bytes

UTF-8, decoded byte by byte. The first byte of a character gives its width, and the bytes of that
width are taken before they are judged: the character is the one whose encoding they are. Anything
else is a failure, and decoding goes on after the bytes taken so far.
-/

namespace SolidScene.Source

/-- The cause given for bytes that encode no character. -/
def invalidUtf8 : String := "input is not valid UTF-8"

/-- The number of bytes that follow this first byte, or nothing when no character starts so. -/
def continuations? (first : UInt8) : Option Nat :=
  if first < 0x80 then some 0
  else if first < 0xC0 then none
  else if first < 0xE0 then some 1
  else if first < 0xF0 then some 2
  else if first < 0xF8 then some 3
  else none

/-- The number that the payload bits of a sequence spell. -/
def scalarValue : List UInt8 → Nat
  | [] => 0
  | first :: rest =>
    rest.foldl (fun n b => n * 64 + b.toNat % 64)
      (first.toNat % match rest.length with | 0 => 128 | 1 => 32 | 2 => 16 | _ => 8)

/-- The character that a sequence of bytes encodes. -/
def charOfBytes? (bytes : List UInt8) : Option Char :=
  let c := Char.ofNat (scalarValue bytes)
  if String.utf8EncodeChar c = bytes then some c else none

/-- The event for a sequence of full width. -/
def eventOfBytes (bytes : List UInt8) : Event :=
  match charOfBytes? bytes with
  | some c => .char c
  | none => .failure invalidUtf8

/-- Decodes from the middle of a character: `taken` are its bytes so far and `missing` more are to
come. Nothing taken means that a character is to start. -/
def decodeFrom (taken : List UInt8) (missing : Nat) : List Signal → List Event
  | [] => if taken.isEmpty then [] else [.failure invalidUtf8]
  | .interruption :: rest => decodeFrom taken missing rest
  | .failure cause :: rest => .failure cause :: decodeFrom [] 0 rest
  | .pause :: rest =>
    (if taken.isEmpty then .pause else .failure invalidUtf8) :: decodeFrom [] 0 rest
  | .byte b :: rest =>
    match if taken.isEmpty then continuations? b else some (missing - 1) with
    | none => .failure invalidUtf8 :: decodeFrom [] 0 rest
    | some 0 => eventOfBytes (taken ++ [b]) :: decodeFrom [] 0 rest
    | some (n + 1) => decodeFrom (taken ++ [b]) (n + 1) rest

/-- The events of a source of bytes. -/
def decode (signals : List Signal) : List Event := decodeFrom [] 0 signals

end SolidScene.Source
