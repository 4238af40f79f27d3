import Positional.Binary64.Rounding
import Positional.Integer

/-!
# JSON values

A JSON text as data. Objects keep their members as written, repeated names included: what a
repetition means is for the reader of the value to say.
-/

namespace Positional

/-- A JSON value. Integers and floats are apart, since `1` and `1.0` are. -/
inductive Json where
  | null
  | bool (flag : Bool)
  | integer (n : Int)
  | float (x : Binary64)
  | string (text : String)
  | array (items : List Json)
  | object (members : List (String × Json))
deriving Inhabited

/-- Puts a named item into a list sorted by name; an item of the same name gives way. -/
def putSorted (name : String) (item : α) : List (String × α) → List (String × α)
  | [] => [(name, item)]
  | (other, old) :: rest =>
    if name < other then (name, item) :: (other, old) :: rest
    else if name == other then (name, item) :: rest
    else (other, old) :: putSorted name item rest

/-- Named items sorted by name, in the order of their characters' code points; of several items of
one name the last remains. -/
def sortByName (items : List (String × α)) : List (String × α) :=
  items.foldl (fun sorted item => putSorted item.1 item.2 sorted) []

namespace Json

/-- A float as JSON, which has no text for NaN and the infinities. -/
def ofBinary64 (x : Binary64) : Json :=
  if x.isFinite then float x else null

mutual

def sorted : Json → Json
  | array items => array (sortedItems items)
  | object members => object (sortByName (sortedMembers members))
  | other => other

def sortedItems : List Json → List Json
  | [] => []
  | item :: rest => item.sorted :: sortedItems rest

def sortedMembers : List (String × Json) → List (String × Json)
  | [] => []
  | (name, item) :: rest => (name, item.sorted) :: sortedMembers rest

end

end Json

end Positional
