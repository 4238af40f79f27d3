import Positional.Binary64.Basic

/-!
# Shortest decimals

The text of a number has the fewest significant digits that still read back as that number, and
among those the digits nearest to it. The search walks the decimal places from the first digit
down; on each place only the two neighbours of the number can be nearest, so two tests decide it.
All quantities are whole: sizes are doubled units times `10 ^ 340`.
-/

namespace Positional

/-- Where a number goes that lies halfway between two shortest decimals. -/
inductive HalfwayRule where
  | toEven
  | up
deriving DecidableEq

structure FloatLayout where
  halfway : HalfwayRule
  /-- Least exponent of the first digit that is written without an exponent. -/
  plainFrom : Int
  /-- Greatest exponent of the first digit that is written without an exponent. -/
  plainTo : Int
  plus : Bool

namespace Binary64

/-- The factor that makes the size of every decimal place whole. -/
def scale : Nat := Nat.pow 10 340

/-- The size of `10 ^ (place - 340)` in doubled units times `10 ^ 340`. -/
def placeSize (place : Nat) : Nat :=
  Nat.pow 10 place * (2 * one)

/-- Whether `digits` on a decimal place lies among the reals that round to the magnitude. The ends
of that interval belong to it when the magnitude is even. -/
def readsBack (magnitude place digits : Nat) : Bool :=
  let size := digits * placeSize place
  let low := (unitsOf (magnitude - 1) + unitsOf magnitude) * scale
  let high := (unitsOf magnitude + unitsOf (magnitude + 1)) * scale
  if magnitude % 2 == 0 then low ≤ size && size ≤ high else low < size && size < high

/-- The nearest digits on a decimal place, if any on that place read back. -/
def digitsAt? (rule : HalfwayRule) (magnitude place : Nat) : Option Nat :=
  let size := 2 * unitsOf magnitude * scale
  let below := size / placeSize place
  let twice := 2 * (size % placeSize place)
  match readsBack magnitude place below, readsBack magnitude place (below + 1) with
  | false, false => none
  | true, false => some below
  | false, true => some (below + 1)
  | true, true =>
    if twice < placeSize place then some below
    else if placeSize place < twice then some (below + 1)
    else match rule with
      | .toEven => some (if below % 2 == 0 then below else below + 1)
      | .up => some (below + 1)

def leadingPlace (magnitude : Nat) : Nat :=
  (Nat.toDigits 10 (unitsOf magnitude * scale / one)).length - 1

/-- The shortest digits of a nonzero finite magnitude, with the place of their last one. Seventeen
digits always suffice. -/
def shortest (rule : HalfwayRule) (magnitude : Nat) : Nat × Nat :=
  let top := leadingPlace magnitude
  ((List.range 17).findSome? fun i =>
    (digitsAt? rule magnitude (top - i)).map (·, top - i)).getD (0, 0)

end Binary64

def zeros (count : Nat) : List Char :=
  List.replicate count '0'

/-- A decimal without an exponent: its first digit stands for `10 ^ exponent`, and there is always a
digit after the point. -/
def plainDecimal (digits : List Char) (exponent : Int) : List Char :=
  if exponent < 0 then '0' :: '.' :: (zeros (-exponent - 1).toNat ++ digits)
  else
    let whole := exponent.toNat + 1
    if digits.length ≤ whole then digits ++ zeros (whole - digits.length) ++ ['.', '0']
    else digits.take whole ++ '.' :: digits.drop whole

/-- A decimal with an exponent; a single digit stands without a point. -/
def scientificDecimal (plus : Bool) (digits : List Char) (exponent : Int) : List Char :=
  let mantissa := match digits with
    | first :: second :: rest => first :: '.' :: second :: rest
    | short => short
  let sign := if exponent < 0 then ['-'] else if plus then ['+'] else []
  mantissa ++ 'e' :: sign ++ Nat.toDigits 10 exponent.natAbs

namespace FloatLayout

def positiveText (layout : FloatLayout) (magnitude : Nat) : List Char :=
  let (digits, place) := Binary64.shortest layout.halfway magnitude
  let text := Nat.toDigits 10 digits
  let exponent : Int := (place + text.length : Nat) - 341
  let significant := (text.reverse.dropWhile (· == '0')).reverse
  if layout.plainFrom ≤ exponent && exponent ≤ layout.plainTo then
    plainDecimal significant exponent
  else scientificDecimal layout.plus significant exponent

def text (layout : FloatLayout) (x : Binary64) : List Char :=
  if x.isNaN then ['N', 'a', 'N']
  else
    let size :=
      if x.magnitude == 0 then ['0', '.', '0']
      else if x.isFinite then layout.positiveText x.magnitude
      else ['i', 'n', 'f']
    if x.isNegative then '-' :: size else size

end FloatLayout

end Positional
