import Mathlib.Data.List.Forall2
import SolidScene.Json.Value

/-!
# The grammar of JSON

Which texts are JSON texts, and of which values (`Element`). Blanks may stand around every token, a
string may be written with any legal escapes, and members stand in their order.
-/

namespace SolidScene.Json.Grammar

def Blanks (cs : List Char) : Prop := ∀ c ∈ cs, isBlank c = true

/-! ## Strings -/

/-- A digit of base sixteen, its letter in either case. -/
def HexDigit (c : Char) (n : ℕ) : Prop := n < 16 ∧ (c = n.digitChar ∨ c = n.digitChar.toUpper)

/-- The letters of short escapes, and the characters that they stand for. -/
def shortEscapes : List (Char × ℕ) :=
  [('"', 0x22), ('\\', 0x5C), ('/', 0x2F), ('b', 0x08), ('f', 0x0C), ('n', 0x0A), ('r', 0x0D),
    ('t', 0x09)]

/-- How a number of 16 bits, or that of a character, is written in quotes. -/
inductive Piece : List Char → ℕ → Prop
  | plain {c : Char} (hcontrol : 0x20 ≤ c.toNat) (hquote : c ≠ '"') (hslash : c ≠ '\\') :
    Piece [c] c.toNat
  | short {c : Char} {n : ℕ} (h : (c, n) ∈ shortEscapes) : Piece ['\\', c] n
  | hex {a b c d : Char} {i j k l : ℕ} (ha : HexDigit a i) (hb : HexDigit b j) (hc : HexDigit c k)
    (hd : HexDigit d l) : Piece ['\\', 'u', a, b, c, d] (((i * 16 + j) * 16 + k) * 16 + l)

/-- The numbers stand for the characters: the number of a character, or those of the two halves of
its surrogate pair. -/
inductive Points : List ℕ → List Char → Prop
  | nil : Points [] []
  | char (c : Char) {points : List ℕ} {cs : List Char} (h : Points points cs) :
    Points (c.toNat :: points) (c :: cs)
  | pair {c : Char} {points : List ℕ} {cs : List Char} (hc : 0x10000 ≤ c.toNat)
    (h : Points points cs) :
    Points ((0xD800 + (c.toNat - 0x10000) / 0x400) ::
      (0xDC00 + (c.toNat - 0x10000) % 0x400) :: points) (c :: cs)

/-- A string in quotes, and its text if its numbers stand for one. -/
inductive Quoted : Option String → List Char → Prop
  | mk {text? : Option String} {pieces : List (List Char)} {points : List ℕ}
    (hpieces : List.Forall₂ Piece pieces points)
    (htext : ∀ text, text? = some text ↔ Points points text.toList) :
    Quoted text? ('"' :: (pieces.flatten ++ ['"']))

/-! ## Numbers -/

def Digits (cs : List Char) : Prop := cs ≠ [] ∧ ∀ c ∈ cs, c.isDigit = true

/-- Digits without a zero in front of others. -/
def Whole (cs : List Char) : Prop := cs = ['0'] ∨ Digits cs ∧ cs.head? ≠ some '0'

def Places (cs : List Char) : Prop := cs = [] ∨ ∃ ds, Digits ds ∧ cs = '.' :: ds

def Power (cs : List Char) : Prop :=
  cs = [] ∨ ∃ e sign ds, e ∈ ['e', 'E'] ∧ sign ∈ [[], ['+'], ['-']] ∧ Digits ds ∧
    cs = e :: (sign ++ ds)

inductive Numeral : List Char → Prop
  | mk {sign whole places power : List Char} (hsign : sign ∈ [[], ['-']]) (hwhole : Whole whole)
    (hplaces : Places places) (hpower : Power power) :
    Numeral (sign ++ (whole ++ (places ++ power)))

/-! ## Values -/

mutual

/-- A value from its first character to its last one. -/
inductive Value : Json → List Char → Prop
  | null : Value .null ['n', 'u', 'l', 'l']
  | true : Value (.bool Bool.true) ['t', 'r', 'u', 'e']
  | false : Value (.bool Bool.false) ['f', 'a', 'l', 's', 'e']
  | number {literal : List Char} (h : Numeral literal) : Value (.number literal) literal
  | string {text? : Option String} {cs : List Char} (h : Quoted text? cs) : Value (.string text?) cs
  | emptyArray {cs : List Char} (h : Blanks cs) : Value (.array []) ('[' :: (cs ++ [']']))
  | array {items : List Json} {cs : List Char} (h : Elements items cs) :
    Value (.array items) ('[' :: (cs ++ [']']))
  | emptyObject {cs : List Char} (h : Blanks cs) : Value (.object []) ('{' :: (cs ++ ['}']))
  | object {members : List (Option String × Json)} {cs : List Char} (h : Members members cs) :
    Value (.object members) ('{' :: (cs ++ ['}']))

/-- A value with the blanks around it. -/
inductive Element : Json → List Char → Prop
  | mk {v : Json} {before cs after : List Char} (hbefore : Blanks before) (h : Value v cs)
    (hafter : Blanks after) : Element v (before ++ (cs ++ after))

inductive Elements : List Json → List Char → Prop
  | one {v : Json} {cs : List Char} (h : Element v cs) : Elements [v] cs
  | more {v : Json} {vs : List Json} {cs ds : List Char} (h : Element v cs) (hs : Elements vs ds) :
    Elements (v :: vs) (cs ++ ',' :: ds)

inductive Member : Option String × Json → List Char → Prop
  | mk {key : Option String} {v : Json} {before quoted after cs : List Char}
    (hbefore : Blanks before) (hkey : Quoted key quoted) (hafter : Blanks after)
    (h : Element v cs) : Member (key, v) (before ++ (quoted ++ (after ++ ':' :: cs)))

inductive Members : List (Option String × Json) → List Char → Prop
  | one {m : Option String × Json} {cs : List Char} (h : Member m cs) : Members [m] cs
  | more {m : Option String × Json} {ms : List (Option String × Json)} {cs ds : List Char}
    (h : Member m cs) (hs : Members ms ds) : Members (m :: ms) (cs ++ ',' :: ds)

end

end SolidScene.Json.Grammar
