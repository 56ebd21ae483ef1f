import SolidScene.Number.Binary64

/-!
# Decimal text of doubles

A finite double has an exact decimal expansion of at most 1074 places. `shortest` writes the point
of the coarsest power-of-ten grid that still reads back as the same double, and `fixed` rounds the
exact value to a given number of places, a half to the even digit. Both write every digit in its
place, without an exponent.
-/

namespace SolidScene.Number

open Binary64 (nearestBits roundHalfEven infinityBits isNegative magnitudeBits unitPlaces
  unitsOfBits)

-- The power of naturals is the core one, whatever else is imported beside this module.
attribute [local instance (high)] instPowNat

/-- The value of a double without its sign, times `10 ^ 1074`. -/
def expansion (bits : Nat) : Nat := unitsOfBits bits * 5 ^ unitPlaces

/-- Whether the point `n` of the grid of step `10 ^ (grid - 1074)` reads back as these bits. -/
def readsBack (bits grid n : Nat) : Bool :=
  nearestBits (n * 10 ^ grid) (5 ^ unitPlaces) == bits

/-- The point of a grid that reads back as these bits: of the two around the value the nearer one
that does, the upper one on a tie. -/
def gridPoint? (bits grid : Nat) : Option Nat :=
  let exact := expansion bits
  let step := 10 ^ grid
  let below := exact / step
  if 2 * (exact % step) < step then [below, below + 1].find? (readsBack bits grid)
  else [below + 1, below].find? (readsBack bits grid)

/-- The point that `gridPoint?` finds on the coarsest grid not above this one, with its grid. The
finest grid holds the value itself. -/
def coarsest (bits : Nat) : Nat → Nat × Nat
  | 0 => (expansion bits, 0)
  | grid + 1 => ((gridPoint? bits (grid + 1)).map (·, grid + 1)).getD (coarsest bits grid)

/-- A grid whose step exceeds the value: `log₁₀ 2 < 0.30103`. -/
def startGrid (bits : Nat) : Nat := ((expansion bits).log2 + 1) * 30103 / 100000 + 1

/-- The last `count` decimal digits of a number, put before `rest`. -/
def lastDigits : Nat → Nat → List Char → List Char
  | 0, _, rest => rest
  | count + 1, n, rest => lastDigits count (n / 10) ((n % 10).digitChar :: rest)

/-- The number `n / 10 ^ places`, with that many places after the point. -/
def positional (n places : Nat) : List Char :=
  Nat.toDigits 10 (n / 10 ^ places) ++ if places = 0 then [] else '.' :: lastDigits places n []

/-- A sign where one is due, then the magnitude; infinities and NaN have words of their own. -/
def signed (magnitude : Nat → List Char) (x : Float) : List Char :=
  let bits := magnitudeBits x
  if infinityBits < bits then ['N', 'a', 'N']
  else
    (if isNegative x then ['-'] else []) ++
      if bits = infinityBits then ['i', 'n', 'f'] else magnitude bits

/-- The magnitude with these bits in its fewest digits. -/
def shortestMagnitude (bits : Nat) : List Char :=
  if bits = 0 then ['0']
  else
    let point := coarsest bits (startGrid bits)
    positional (point.1 * 10 ^ (point.2 - unitPlaces)) (unitPlaces - point.2)

def shortest : Float → List Char := signed shortestMagnitude

/-- The magnitude with these bits, rounded to a number of places. Beyond the exact expansion the
places are zeros. -/
def fixedMagnitude (places bits : Nat) : List Char :=
  let exact := min places unitPlaces
  positional (roundHalfEven (expansion bits) (10 ^ (unitPlaces - exact))) exact ++
    List.replicate (places - exact) '0'

/-- The exact value rounded to this many places after the point. -/
def fixed (places : Nat) : Float → List Char := signed (fixedMagnitude places)

end SolidScene.Number
