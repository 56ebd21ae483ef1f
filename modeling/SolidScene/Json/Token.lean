import SolidScene.Json.Quoted

/-!
# Tokens

The tokens of JSON text. Blanks may stand between them; nothing else may.
-/

namespace SolidScene.Json

/-- A token of JSON text. A string that is no text has none. -/
inductive Token where
  | beginArray
  | endArray
  | beginObject
  | endObject
  | comma
  | colon
  | null
  | bool (value : Bool)
  | number (literal : List Char)
  | string (text? : Option String)
deriving Repr, DecidableEq

def isBlank (c : Char) : Bool := c == ' ' || c == '\n' || c == '\r' || c == '\t'

/-- One or more digits at the front. -/
def digits? (cs : List Char) : Option (List Char × List Char) :=
  let ds := cs.takeWhile Char.isDigit
  if ds.isEmpty then none else some (ds, cs.dropWhile Char.isDigit)

/-- The whole part of a number: a zero alone, or digits. -/
def whole? : List Char → Option (List Char × List Char)
  | '0' :: rest => some (['0'], rest)
  | cs => digits? cs

/-- The places after a point, if there is one. -/
def fraction? : List Char → Option (List Char × List Char)
  | '.' :: cs => (digits? cs).map fun (ds, rest) => ('.' :: ds, rest)
  | cs => some ([], cs)

def exponentSign : List Char → List Char × List Char
  | '+' :: cs => (['+'], cs)
  | '-' :: cs => (['-'], cs)
  | cs => ([], cs)

/-- The power of ten of a number, if there is one. -/
def exponent? : List Char → Option (List Char × List Char)
  | [] => some ([], [])
  | c :: cs =>
    if c = 'e' ∨ c = 'E' then
      let (sign, cs) := exponentSign cs
      (digits? cs).map fun (ds, rest) => (c :: sign ++ ds, rest)
    else some ([], c :: cs)

def magnitude? (cs : List Char) : Option (List Char × List Char) := do
  let (whole, cs) ← whole? cs
  let (places, cs) ← fraction? cs
  let (power, cs) ← exponent? cs
  return (whole ++ places ++ power, cs)

def number? : List Char → Option (List Char × List Char)
  | '-' :: cs => (magnitude? cs).map fun (literal, rest) => ('-' :: literal, rest)
  | cs => magnitude? cs

/-- The token at the front, and the rest. -/
def Token.next? : List Char → Option (Token × List Char)
  | '[' :: rest => some (.beginArray, rest)
  | ']' :: rest => some (.endArray, rest)
  | '{' :: rest => some (.beginObject, rest)
  | '}' :: rest => some (.endObject, rest)
  | ',' :: rest => some (.comma, rest)
  | ':' :: rest => some (.colon, rest)
  | 'n' :: 'u' :: 'l' :: 'l' :: rest => some (.null, rest)
  | 't' :: 'r' :: 'u' :: 'e' :: rest => some (.bool true, rest)
  | 'f' :: 'a' :: 'l' :: 's' :: 'e' :: rest => some (.bool false, rest)
  | '"' :: cs => (scanString? cs).map fun (points, rest) => (.string (textOfPoints? points), rest)
  | cs => (number? cs).map fun (literal, rest) => (.number literal, rest)

/-! ## What is left is shorter -/

theorem digits?_length {cs ds rest : List Char} (h : digits? cs = some (ds, rest)) :
    rest.length < cs.length := by
  have hl := congrArg List.length (List.takeWhile_append_dropWhile (p := Char.isDigit) (l := cs))
  rw [List.length_append] at hl
  simp only [digits?] at h
  split at h
  · simp at h
  · rename_i hne
    cases h
    have := List.length_pos_iff.2 fun he => hne (List.isEmpty_iff.2 he)
    omega

theorem whole?_length {cs ds rest : List Char} (h : whole? cs = some (ds, rest)) :
    rest.length < cs.length := by
  unfold whole? at h
  split at h
  · cases h; simp
  · exact digits?_length h

theorem fraction?_length {cs ds rest : List Char} (h : fraction? cs = some (ds, rest)) :
    rest.length ≤ cs.length := by
  unfold fraction? at h
  split at h
  · simp only [Option.map_eq_some_iff] at h
    obtain ⟨⟨es, r⟩, h₁, h₂⟩ := h
    cases h₂
    have := digits?_length h₁
    simp only [List.length_cons]
    omega
  · cases h; exact Nat.le_refl _

theorem exponentSign_length (cs : List Char) : (exponentSign cs).2.length ≤ cs.length := by
  unfold exponentSign
  split <;> simp

theorem exponent?_length {cs ds rest : List Char} (h : exponent? cs = some (ds, rest)) :
    rest.length ≤ cs.length := by
  unfold exponent? at h
  split at h
  · cases h; exact Nat.le_refl _
  · rename_i c cs
    have hs := exponentSign_length cs
    split at h
    · simp only [Option.map_eq_some_iff] at h
      obtain ⟨⟨es, r⟩, h₁, h₂⟩ := h
      cases h₂
      have := digits?_length h₁
      simp only [List.length_cons]
      omega
    · cases h; exact Nat.le_refl _

theorem magnitude?_length {cs ds rest : List Char} (h : magnitude? cs = some (ds, rest)) :
    rest.length < cs.length := by
  simp only [magnitude?, bind, Option.bind_eq_some_iff] at h
  obtain ⟨⟨ws, r₁⟩, h₁, ⟨ps, r₂⟩, h₂, ⟨es, r₃⟩, h₃, h₄⟩ := h
  cases h₄
  have := whole?_length h₁
  have := fraction?_length h₂
  have := exponent?_length h₃
  exact Nat.lt_of_le_of_lt (Nat.le_trans ‹_› ‹_›) ‹_›

theorem number?_length {cs ds rest : List Char} (h : number? cs = some (ds, rest)) :
    rest.length < cs.length := by
  unfold number? at h
  split at h
  · simp only [Option.map_eq_some_iff] at h
    obtain ⟨⟨es, r⟩, h₁, h₂⟩ := h
    cases h₂
    have := magnitude?_length h₁
    simp only [List.length_cons]
    omega
  · exact magnitude?_length h

theorem Token.next?_length {cs rest : List Char} {t : Token} (h : Token.next? cs = some (t, rest)) :
    rest.length < cs.length := by
  unfold Token.next? at h
  split at h
  case h_10 cs =>
    simp only [Option.map_eq_some_iff] at h
    obtain ⟨⟨ps, r⟩, h₁, h₂⟩ := h
    cases h₂
    have := scanString?_length h₁
    simp only [List.length_cons]
    omega
  case h_11 =>
    simp only [Option.map_eq_some_iff] at h
    obtain ⟨⟨ds, r⟩, h₁, h₂⟩ := h
    cases h₂
    exact number?_length h₁
  all_goals
    cases h
    simp only [List.length_cons]
    omega

/-- The tokens of a text, or nothing where it has something else. -/
def Token.scan? (cs : List Char) : Option (List Token) :=
  match cs with
  | [] => some []
  | c :: rest =>
    if isBlank c then scan? rest
    else
      match h : Token.next? (c :: rest) with
      | none => none
      | some (t, rest') =>
        have : rest'.length ≤ rest.length := Nat.le_of_lt_succ (Token.next?_length h)
        (scan? rest').map (t :: ·)
termination_by cs.length

end SolidScene.Json
