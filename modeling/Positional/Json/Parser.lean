import Positional.Json.Token

/-!
# Reading JSON

The tokens of a text are read from left to right over a stack of the containers that are open. The
stack never holds more than `maxOpen` of them.
-/

namespace Positional

namespace Json

/-- A container that is open, with what it holds so far, last first. -/
inductive Opened where
  | array (items : List Json)
  | object (members : List (String × Json))
  | member (members : List (String × Json)) (name : String)

inductive Stage where
  | value
  /-- An item, or the end of an array that holds none. -/
  | firstItem
  | name
  | firstName
  | colon (name : String)
  | separator
  | done (json : Json)

structure Parse where
  stage : Stage
  stack : List Opened

/-- How many arrays and objects may be open at once. -/
def maxOpen : Nat := 127

namespace Parse

def start : Parse :=
  ⟨.value, []⟩

/-- Hands a finished value to the innermost open container. -/
def complete (stack : List Opened) (json : Json) : Option Parse :=
  match stack with
  | [] => some ⟨.done json, []⟩
  | .array items :: outer => some ⟨.separator, .array (json :: items) :: outer⟩
  | .member members name :: outer => some ⟨.separator, .object ((name, json) :: members) :: outer⟩
  | .object _ :: _ => none

def enter (stack : List Opened) (stage : Stage) (container : Opened) : Option Parse :=
  if stack.length < maxOpen then some ⟨stage, container :: stack⟩ else none

def beginValue (stack : List Opened) : Token → Option Parse
  | .scalar json => complete stack json
  | .string text => complete stack (.string text)
  | .openArray => enter stack .firstItem (.array [])
  | .openObject => enter stack .firstName (.object [])
  | _ => none

def close : List Opened → Token → Option Parse
  | .array items :: outer, .closeArray => complete outer (.array items.reverse)
  | .object members :: outer, .closeObject => complete outer (.object members.reverse)
  | _, _ => none

def step (parse : Parse) (token : Token) : Option Parse :=
  match parse.stage, token, parse.stack with
  | .value, token, stack => beginValue stack token
  | .firstItem, .closeArray, stack => close stack .closeArray
  | .firstItem, token, stack => beginValue stack token
  | .name, .string name, stack => some ⟨.colon name, stack⟩
  | .firstName, .string name, stack => some ⟨.colon name, stack⟩
  | .firstName, .closeObject, stack => close stack .closeObject
  | .colon name, .colon, .object members :: outer => some ⟨.value, .member members name :: outer⟩
  | .separator, .comma, .array items :: outer => some ⟨.value, .array items :: outer⟩
  | .separator, .comma, .object members :: outer => some ⟨.name, .object members :: outer⟩
  | .separator, token, stack => close stack token
  | _, _, _ => none

def result? (parse : Parse) : Option Json :=
  match parse.stage with
  | .done json => some json
  | _ => none

end Parse

def ofTokens? (tokens : List Token) : Option Json :=
  (tokens.foldlM Parse.step Parse.start).bind Parse.result?

def parse? (text : String) (reader : FloatReader := .scaled) : Option Json :=
  (tokens? reader text.toList).bind ofTokens?

end Json

end Positional
