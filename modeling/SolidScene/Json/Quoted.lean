/-!
# Quoted strings

JSON strings between their quotes. `quote` writes one with the short escapes where there are any;
`scanString?` reads one with every legal escape. An escape may name half of a surrogate pair: two
halves side by side are one character, and a half alone leaves a string that is no text.
-/

namespace SolidScene.Json

def hexDigit (n : Nat) : Char := n.digitChar

/-- How a character is written inside quotes. -/
def escape (c : Char) : List Char :=
  if c = '"' then ['\\', '"']
  else if c = '\\' then ['\\', '\\']
  else if c.toNat = 0x08 then ['\\', 'b']
  else if c.toNat = 0x0C then ['\\', 'f']
  else if c = '\n' then ['\\', 'n']
  else if c = '\r' then ['\\', 'r']
  else if c = '\t' then ['\\', 't']
  else if c.toNat < 0x20 then
    ['\\', 'u', '0', '0', hexDigit (c.toNat / 16), hexDigit (c.toNat % 16)]
  else [c]

def quote (text : String) : List Char := '"' :: text.toList.flatMap escape ++ ['"']

def hexValue? (c : Char) : Option Nat :=
  if c.isDigit then some (c.toNat - '0'.toNat)
  else if 'a' ≤ c ∧ c ≤ 'f' then some (c.toNat - 'a'.toNat + 10)
  else if 'A' ≤ c ∧ c ≤ 'F' then some (c.toNat - 'A'.toNat + 10)
  else none

def hexNumber? (a b c d : Char) : Option Nat := do
  let a ← hexValue? a
  let b ← hexValue? b
  let c ← hexValue? c
  let d ← hexValue? d
  return ((a * 16 + b) * 16 + c) * 16 + d

/-- The character that a short escape stands for. -/
def shortEscape? : Char → Option Nat
  | '"' => some 0x22
  | '\\' => some 0x5C
  | '/' => some 0x2F
  | 'b' => some 0x08
  | 'f' => some 0x0C
  | 'n' => some 0x0A
  | 'r' => some 0x0D
  | 't' => some 0x09
  | _ => none

/-- Reads up to the closing quote, and gives what was read as numbers of characters and of
surrogate halves, with the rest. A control character may not stand in quotes as it is. -/
def scanString? : List Char → Option (List Nat × List Char)
  | [] => none
  | '"' :: rest => some ([], rest)
  | '\\' :: 'u' :: a :: b :: c :: d :: rest => do
    let n ← hexNumber? a b c d
    let (points, rest) ← scanString? rest
    return (n :: points, rest)
  | '\\' :: c :: rest => do
    let n ← shortEscape? c
    let (points, rest) ← scanString? rest
    return (n :: points, rest)
  | c :: rest =>
    if c.toNat < 0x20 ∨ c = '\\' then none
    else do
      let (points, rest) ← scanString? rest
      return (c.toNat :: points, rest)

def isLeading (n : Nat) : Bool := decide (0xD800 ≤ n) && decide (n < 0xDC00)

def isTrailing (n : Nat) : Bool := decide (0xDC00 ≤ n) && decide (n < 0xE000)

/-- The characters of a string, pairs of surrogate halves put together; a half alone is none. -/
def charsOfPoints? : List Nat → Option (List Char)
  | [] => some []
  | [n] => if isLeading n || isTrailing n then none else some [Char.ofNat n]
  | n :: m :: rest =>
    if isLeading n then
      if isTrailing m then
        (charsOfPoints? rest).map
          (Char.ofNat (0x10000 + (n - 0xD800) * 0x400 + (m - 0xDC00)) :: ·)
      else none
    else if isTrailing n then none
    else (charsOfPoints? (m :: rest)).map (Char.ofNat n :: ·)

def textOfPoints? (points : List Nat) : Option String :=
  (charsOfPoints? points).map String.ofList

theorem scanString?_length {cs : List Char} {points : List Nat} {rest : List Char}
    (h : scanString? cs = some (points, rest)) : rest.length < cs.length := by
  fun_induction scanString? cs generalizing points rest with
  | case1 => simp at h
  | case2 => simp_all
  | case3 a b c d r ih =>
    simp only [bind, Option.bind_eq_some_iff] at h
    obtain ⟨n, -, ⟨ps, r'⟩, h₁, h₂⟩ := h
    cases h₂
    have := ih h₁
    simp only [List.length_cons]
    omega
  | case4 c r _ ih =>
    simp only [bind, Option.bind_eq_some_iff] at h
    obtain ⟨n, -, ⟨ps, r'⟩, h₁, h₂⟩ := h
    cases h₂
    have := ih h₁
    simp only [List.length_cons]
    omega
  | case5 => simp at h
  | case6 c r _ _ _ _ ih =>
    simp only [bind, Option.bind_eq_some_iff] at h
    obtain ⟨⟨ps, r'⟩, h₁, h₂⟩ := h
    cases h₂
    have := ih h₁
    simp only [List.length_cons]
    omega

end SolidScene.Json
