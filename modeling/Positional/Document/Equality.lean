import Positional.Document.Basic

/-!
# Equality of content

Two documents are the same when they hold the same content, whatever the order of fields and the
variant of a number: integers and floats compare as the numbers they denote, a date compares with
its tick count, and bytes with an array of the same numbers.
-/

namespace Positional

namespace Value

/-- Equality of content for all pairs but two arrays or two objects. -/
def sameScalar : Value → Value → Bool
  | .null, .null => true
  | .bool a, .bool b => a == b
  | .text a, .text b => a == b
  | .bytes a, .bytes b => a == b
  | .bytes content, .array items => items.map toByte? == content.map some
  | .array items, .bytes content => items.map toByte? == content.map some
  | .date a, .date b => a == b
  | .date a, .int b => a == b
  | .int a, .date b => a == b
  | .float x, .float y => x.equals y
  | a, b => a.integer?.isSome && a.integer? == b.integer?

mutual

def same : Value → Value → Bool
  | .array items, .array others => sameItems items others
  | .object fields, .object others =>
    fields.length == others.length && sameFields fields others
  | a, b => sameScalar a b

def sameItems : List Value → List Value → Bool
  | [], [] => true
  | a :: rest, b :: others => same a b && sameItems rest others
  | _, _ => false

def sameFields : List (String × Value) → List (String × Value) → Bool
  | [], _ => true
  | (name, a) :: rest, others =>
    (match others.lookup name with
    | some b => same a b
    | none => false) && sameFields rest others

end

end Value

end Positional
