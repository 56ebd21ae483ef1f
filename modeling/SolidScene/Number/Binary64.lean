/-!
# Doubles as whole numbers of units

Every finite double is a whole number of units of `2⁻¹⁰⁷⁴`, the smallest positive double. `units`
counts them and `nearestBits` goes back: it rounds any fraction of units to the nearest double,
ties to the even one. Reading and writing decimals and the remainder are exact through the two.
-/

namespace SolidScene.Binary64

-- The power of naturals is the core one, whatever else is imported beside this module.
attribute [local instance (high)] instPowNat

/-- The quotient `num / den` rounded to a whole number, a half to the even neighbour. -/
def roundHalfEven (num den : Nat) : Nat :=
  if 2 * (num % den) < den then num / den
  else if 2 * (num % den) = den then num / den + num / den % 2
  else num / den + 1

/-- The bits of positive infinity, which come right after those of the greatest finite double. -/
def infinityBits : Nat := 0x7FF0000000000000

/-- The bits of the double that has the sign bit set and nothing else. -/
def signBit : Nat := 0x8000000000000000

def fractionBits : Nat := 52

/-- The places behind the point of a unit, in binary as in decimal. -/
def unitPlaces : Nat := 1074

/-- The units in the finite double with these bits and no sign. -/
def unitsOfBits (bits : Nat) : Nat :=
  if bits < 2 ^ fractionBits then bits
  else (2 ^ fractionBits + bits % 2 ^ fractionBits) * 2 ^ (bits / 2 ^ fractionBits - 1)

/-- The bits of the double nearest to `num / den` units.

Doubles below `2 ^ 53` units are one unit apart and their bits count the units. From there on the
spacing doubles with every power of two, and each doubling takes another `2 ^ 52` bit patterns. -/
def nearestBits (num den : Nat) : Nat :=
  let doublings := (num / den).log2 - fractionBits
  min (doublings * 2 ^ fractionBits + roundHalfEven num (den * 2 ^ doublings)) infinityBits

def isNegative (x : Float) : Bool := decide (signBit ≤ x.toBits.toNat)

def magnitudeBits (x : Float) : Nat := x.toBits.toNat % signBit

/-- The units in a finite double, its sign left out. -/
def units (x : Float) : Nat := unitsOfBits (magnitudeBits x)

/-- The double with this sign and these bits below it. -/
def ofSignBits (negative : Bool) (bits : Nat) : Float :=
  Float.ofBits (UInt64.ofNat (if negative then signBit + bits else bits))

def nan : Float := Float.ofBits 0x7FF8000000000000

/-- What is left of `x` after taking away `y` as often as it fits, with the sign of `x`.
The result is exact; there is none for an infinite `x` or a zero `y`. -/
def remainder (x y : Float) : Float :=
  if !x.isFinite || y.isNaN || y == 0 then nan
  else if !y.isFinite then x
  else ofSignBits (isNegative x) (nearestBits (units x % units y) 1)

/-- The lesser of two doubles. A NaN gives way to the other, and the first wins a tie. -/
def least (x y : Float) : Float :=
  if x.isNaN then y else if y < x then y else x

/-- The greater of two doubles. A NaN gives way to the other, and the first wins a tie. -/
def greatest (x y : Float) : Float :=
  if x.isNaN then y else if x < y then y else x

def largest : Float := ofSignBits false (infinityBits - 1)

end SolidScene.Binary64
