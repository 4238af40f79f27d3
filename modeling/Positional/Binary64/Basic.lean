/-!
# Binary64 numbers

A number is its 64-bit pattern, so a NaN keeps its sign and payload wherever it travels. Numeric
questions are answered in whole multiples of `2 ^ -1074`, the least positive number: every finite
number is one, so no comparison or conversion here rounds.
-/

namespace Positional

/-- A binary64 floating-point number, held as its bit pattern. Equality of this type is equality of
patterns; `Binary64.equals` is equality of numbers. -/
structure Binary64 where
  bits : UInt64
deriving DecidableEq

/-- The whole number of this size and sign. -/
def signed (negative : Bool) (size : Nat) : Int :=
  if negative then -(size : Int) else size

namespace Binary64

def signBit : Nat := 9223372036854775808

/-- How many magnitudes share an exponent: `2 ^ 52`. -/
def binade : Nat := 4503599627370496

def isNegative (x : Binary64) : Bool :=
  signBit ≤ x.bits.toNat

/-- The pattern without its sign. Magnitudes count the numbers upwards from zero, infinity and the
NaNs last. -/
def magnitude (x : Binary64) : Nat :=
  x.bits.toNat % signBit

def ofMagnitude (negative : Bool) (magnitude : Nat) : Binary64 :=
  ⟨UInt64.ofNat (if negative then signBit + magnitude else magnitude)⟩

/-- The magnitude of infinity; the magnitudes of the finite numbers are the smaller ones. -/
def infinity : Nat := 2047 * binade

def isFinite (x : Binary64) : Bool :=
  x.magnitude < infinity

def isNaN (x : Binary64) : Bool :=
  infinity < x.magnitude

/-- The number one, in units of `2 ^ -1074`. -/
def one : Nat := Nat.pow 2 1074

/-- The exact size of a magnitude in units of `2 ^ -1074`. Infinity gets the size one step above
the greatest finite number. -/
def unitsOf (magnitude : Nat) : Nat :=
  if magnitude < binade then magnitude
  else (binade + magnitude % binade) * Nat.pow 2 (magnitude / binade - 1)

/-- The exact number in units of `2 ^ -1074`, with its sign; both zeros are 0. -/
def units (x : Binary64) : Int :=
  signed x.isNegative (unitsOf x.magnitude)

/-- Numeric equality: the zeros are equal, a NaN equals nothing. -/
def equals (x y : Binary64) : Bool :=
  !x.isNaN && !y.isNaN && x.units == y.units

def toInt? (x : Binary64) : Option Int :=
  let size := unitsOf x.magnitude
  if x.isFinite && size % one == 0 then some (signed x.isNegative (size / one)) else none

def isIntegral (x : Binary64) : Bool :=
  x.toInt?.isSome

end Binary64

end Positional
