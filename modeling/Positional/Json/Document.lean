import Positional.Document.Basic
import Positional.Json.Basic

/-!
# Documents as JSON

Data comes from JSON and goes back to it. JSON knows less than a document: bytes become arrays of
numbers, dates their tick counts, and integral floats integers as long as a float can tell
neighbouring integers apart.
-/

namespace Positional

namespace Json

mutual

/-- The document of a JSON value. An integer is signed where it fits; objects are sorted by name,
the last of several members of one name counts. -/
def toValue : Json → Value
  | null => .null
  | bool flag => .bool flag
  | integer n =>
    match int64? n, uint64? n with
    | some n, _ => .int n
    | none, some n => .uint n
    | none, none => .float (.ofInt n)
  | float x => .float x
  | string text => .text text
  | array items => .array (toValues items)
  | object members => .object (sortByName (toFields members))

def toValues : List Json → List Value
  | [] => []
  | item :: rest => item.toValue :: toValues rest

def toFields : List (String × Json) → List (String × Value)
  | [] => []
  | (name, item) :: rest => (name, item.toValue) :: toFields rest

end

/-- The greatest integer below which floats tell all integers apart. -/
def maxSafeInteger : Nat := 9007199254740991

def ofFloat (x : Binary64) : Json :=
  match x.toInt? with
  | some n => if n.natAbs ≤ maxSafeInteger then integer n else ofBinary64 x
  | none => ofBinary64 x

end Json

namespace Value

mutual

def toJson : Value → Json
  | null => .null
  | bool flag => .bool flag
  | int n => .integer n.toInt
  | uint n => .integer n.toNat
  | float x => .ofFloat x
  | date ticks => .integer ticks.toInt
  | bytes content => .array (content.map fun byte => .integer byte.toNat)
  | text content => .string content
  | array items => .array (toJsonItems items)
  | object fields => .object (sortByName (toJsonMembers fields))

def toJsonItems : List Value → List Json
  | [] => []
  | item :: rest => item.toJson :: toJsonItems rest

def toJsonMembers : List (String × Value) → List (String × Json)
  | [] => []
  | (name, field) :: rest => (name, field.toJson) :: toJsonMembers rest

end

end Value

end Positional
