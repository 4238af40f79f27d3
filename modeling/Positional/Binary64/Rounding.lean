import Positional.Binary64.Basic

/-!
# Rounding to binary64

Every conversion into binary64 is one rounding of an exact fraction to the nearest number, a half
going to the neighbour with the even pattern.
-/

namespace Positional

/-- `num / den` rounded to the nearest whole number, a half going to the even one. -/
def roundDiv (num den : Nat) : Nat :=
  let quotient := num / den
  let rest := num % den
  if 2 * rest < den || (2 * rest == den && quotient % 2 == 0) then quotient else quotient + 1

namespace Binary64

/-- The magnitude nearest to `num / den` units. The units of one binade are grouped so that 53
binary digits remain; rounding up to the next power of two carries into the exponent by itself. -/
def magnitudeOfUnits (num den : Nat) : Nat :=
  let shift := (num / den).log2 - 52
  min infinity (shift * binade + roundDiv num (den * Nat.pow 2 shift))

/-- The number nearest to `num / den` with the given sign; infinite beyond the greatest number. -/
def ofRatio (negative : Bool) (num den : Nat) : Binary64 :=
  ofMagnitude negative (magnitudeOfUnits (num * one) den)

def ofInt (n : Int) : Binary64 :=
  ofRatio (n < 0) n.natAbs 1

/-- The number nearest to `digits * 10 ^ exponent`. A decimal at or above `10 ^ 310` is infinite and
one below `10 ^ -330` is zero without computing the power. -/
def ofDecimal (negative : Bool) (digits : Nat) (exponent : Int) : Binary64 :=
  let places : Int := (Nat.toDigits 10 digits).length + exponent
  if digits == 0 || places < -330 then ofMagnitude negative 0
  else if 310 < places then ofMagnitude negative infinity
  else ofRatio negative (digits * Nat.pow 10 exponent.toNat) (Nat.pow 10 (-exponent).toNat)

end Binary64

end Positional
