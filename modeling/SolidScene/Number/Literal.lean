import SolidScene.Number.Binary64

/-!
# Number literals

A literal is an optional sign and either decimal digits with at most one point and an optional
exponent, or one of the words `inf`, `infinity` and `nan`. Letter case never matters. Its value is
the nearest double, ties to even, so a literal may also be too great or too small and read as an
infinity or a zero.
-/

namespace SolidScene.Number

open Binary64 (nearestBits ofSignBits infinityBits nan unitPlaces)

-- The power of naturals is the core one, whatever else is imported beside this module.
attribute [local instance (high)] instPowNat

/-- An exponent within the range that can matter for `digits`: past it on either side the value is
an infinity or a zero all the same. -/
def clampExponent (digits : Nat) (exponent : Int) : Int :=
  max (-(401 + digits.log2 : Nat)) (min exponent 400)

/-- The double nearest to `digits * 10 ^ exponent`. -/
def ofDecimal (negative : Bool) (digits : Nat) (exponent : Int) : Float :=
  ofSignBits negative <| match clampExponent digits exponent with
    | .ofNat n => nearestBits (digits * 10 ^ n * 2 ^ unitPlaces) 1
    | .negSucc n => nearestBits (digits * 2 ^ unitPlaces) (10 ^ (n + 1))

def natOfDigits (cs : List Char) : Nat :=
  cs.foldl (fun n c => 10 * n + (c.toNat - '0'.toNat)) 0

/-- A whole word of at least one digit. -/
def digits? (cs : List Char) : Option Nat :=
  if !cs.isEmpty && cs.all Char.isDigit then some (natOfDigits cs) else none

/-- The power of ten that ends a literal in lower case; nothing written means zero. -/
def exponent? : List Char → Option Int
  | [] => some 0
  | 'e' :: '-' :: cs => (digits? cs).map fun n => -(n : Int)
  | 'e' :: '+' :: cs => (digits? cs).map fun n => (n : Int)
  | 'e' :: cs => (digits? cs).map fun n => (n : Int)
  | _ => none

/-- The digits at the front, and what follows them. -/
def spanDigits (cs : List Char) : List Char × List Char :=
  (cs.takeWhile Char.isDigit, cs.dropWhile Char.isDigit)

/-- The digits right after a decimal point, and what follows them. -/
def fraction : List Char → List Char × List Char
  | '.' :: cs => spanDigits cs
  | cs => ([], cs)

/-- An unsigned literal of digits, in lower case. -/
def decimal? (negative : Bool) (cs : List Char) : Option Float :=
  let (whole, rest) := spanDigits cs
  let (places, rest) := fraction rest
  let digits := whole ++ places
  if digits.isEmpty then none
  else (exponent? rest).map fun e => ofDecimal negative (natOfDigits digits) (e - places.length)

def magnitude? (negative : Bool) (cs : List Char) : Option Float :=
  if cs = ['i', 'n', 'f'] ∨ cs = ['i', 'n', 'f', 'i', 'n', 'i', 't', 'y'] then
    some (ofSignBits negative infinityBits)
  else if cs = ['n', 'a', 'n'] then some nan
  else decimal? negative cs

/-- The value of a literal, or nothing when the word is none. -/
def ofChars? (cs : List Char) : Option Float :=
  match cs.map Char.toLower with
  | '-' :: rest => magnitude? true rest
  | '+' :: rest => magnitude? false rest
  | word => magnitude? false word

def finite? (cs : List Char) : Option Float :=
  (ofChars? cs).filter Float.isFinite

end SolidScene.Number
