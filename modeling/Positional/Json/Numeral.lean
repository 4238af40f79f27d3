import Positional.Binary64.Rounding

/-!
# Numerals

Numbers of JSON texts as they are spelled. Which float a numeral stands for is up to a reader: one
takes the nearest, another works in floats all along, which is quicker and can miss it by one.
-/

namespace Positional

namespace Json

structure Numeral where
  negative : Bool
  whole : List Char
  fraction : List Char
  exponent : Int

/-- How numerals are read as floats. None is read of a numeral that is out of range. -/
abbrev FloatReader := Numeral → Option Binary64

namespace FloatReader

def nearest : FloatReader := fun numeral =>
  some (.ofDecimal numeral.negative (Nat.ofDigitChars 10 (numeral.whole ++ numeral.fraction) 0)
    (numeral.exponent - numeral.fraction.length))

/-- Goes on with a number digit by digit while it fits 64 bits, and counts the digits left. -/
def takeDigits (n : Nat) : List Char → Nat × Nat
  | [] => (n, 0)
  | c :: rest =>
    let next := Nat.ofDigitChars 10 [c] n
    if next < UInt64.size then takeDigits next rest else (n, rest.length + 1)

def powerOfTen (exponent : Nat) : Nat :=
  Binary64.magnitudeOfUnits (Nat.pow 10 exponent * Binary64.one) 1

/-- A magnitude moved so many decimal places down, at most 308 of them at a time. -/
def moveDown (magnitude places : Nat) : Nat :=
  let shifted (power : Nat) := Binary64.magnitudeOfUnits (Binary64.unitsOf magnitude * Binary64.one)
    (Binary64.unitsOf (powerOfTen power))
  if places ≤ 308 then shifted places
  else if magnitude == 0 then 0
  else moveDown (shifted 308) (places - 308)
termination_by places

/-- Rounds the digits that fit 64 bits, and then once more for each power of ten. -/
def scaled : FloatReader := fun numeral =>
  let (n, ahead) := takeDigits 0 numeral.whole
  let (n, behind) := takeDigits n numeral.fraction
  let exponent := numeral.exponent + ahead - (numeral.fraction.length - behind : Nat)
  let magnitude := Binary64.magnitudeOfUnits (n * Binary64.one) 1
  let moved :=
    if exponent < 0 then moveDown magnitude (-exponent).toNat
    else if magnitude == 0 then 0
    else if 308 < exponent then Binary64.infinity
    else Binary64.magnitudeOfUnits
      (Binary64.unitsOf magnitude * Binary64.unitsOf (powerOfTen exponent.toNat)) Binary64.one
  some (.ofMagnitude numeral.negative moved)

end FloatReader

end Json

end Positional
