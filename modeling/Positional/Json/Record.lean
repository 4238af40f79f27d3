import Positional.Json.Basic

/-!
# Records in JSON

A record is an object that holds each of its fields once, whatever else it holds. Where records of
several forms are told apart, each names its form.
-/

namespace Positional

/-- The one thing that was found, where exactly one was. -/
def single? : List α → Option α
  | [item] => some item
  | _ => none

namespace Json

def membersNamed (name : String) (members : List (String × Json)) : List Json :=
  (members.filter (·.1 == name)).map (·.2)

/-- The value of a field, which must be there once. -/
def field? (name : String) (members : List (String × Json)) : Option Json :=
  single? (membersNamed name members)

/-- The reading of a field that may be left out, but not repeated. -/
def optionalField? (name : String) (members : List (String × Json)) (missing : α)
    (read : Json → Option α) : Option α :=
  match membersNamed name members with
  | [] => some missing
  | [item] => read item
  | _ => none

/-- The form that a record names. Inside another record it may be given by its place among the forms
instead, counted from zero. -/
def form? (forms : List String) (nested : Bool) : Json → Option String
  | string name => some name
  | integer n => if nested && 0 ≤ n then forms[n.toNat]? else none
  | _ => none

def string? : Json → Option String
  | string text => some text
  | _ => none

def bool? : Json → Option Bool
  | bool flag => some flag
  | _ => none

/-- Any number as a float; integers are rounded to the nearest. -/
def number? : Json → Option Binary64
  | integer n => some (.ofInt n)
  | float x => some x
  | _ => none

def strings? : Json → Option (List String)
  | array items => items.mapM string?
  | _ => none

end Json

end Positional
