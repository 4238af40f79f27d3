import Positional.Json.Parser
import Positional.Json.Printer
import Positional.Json.Record
import Positional.Schema.Basic

/-!
# Schema descriptions

A schema written as JSON: a record for each node, with the name of its form under `type`. A record
may also be written by position: the form and then its fields in order. A record inside another may
give the place of its form instead of the name. Reading the text and making the schema are two
steps, since a description may hold a literal that no schema has.
-/

namespace Positional

inductive Description where
  | object (fields : List (String × Description))
  | union (discriminator : String) (options : List Description)
  | string
  | boolean
  | date
  | null
  | bytes
  | number (int : Bool) (min max : Option Binary64)
  | enum (values : List String)
  | literal (value : Json)
  | array (items : Description)
  | optional (inner : Description)
  | nullable (inner : Description)
  | bigint
  | any

namespace Description

def ofName? (form : String) : Option Description :=
  match form with
  | "string" => some string
  | "boolean" => some boolean
  | "date" => some date
  | "null" => some null
  | "bytes" => some bytes
  | "bigint" => some bigint
  | "any" => some any
  | _ => none

def bound? : Json → Option (Option Binary64)
  | .null => some none
  | json => json.number?.map some

def numberOfMembers? (members : List (String × Json)) : Option Description := do
  let int ← Json.optionalField? "int" members false Json.bool?
  let min ← Json.optionalField? "min" members none bound?
  let max ← Json.optionalField? "max" members none bound?
  return number int min max

def numberOfItems? : List Json → Option Description
  | [] => some (number false none none)
  | [int] => do return number (← int.bool?) none none
  | [int, min] => do return number (← int.bool?) (← bound? min) none
  | [int, min, max] => do return number (← int.bool?) (← bound? min) (← bound? max)
  | _ => none

def forms : List String :=
  ["object", "union", "string", "boolean", "date", "null", "bytes", "number", "enum", "literal",
    "array", "optional", "nullable", "bigint", "any"]

mutual

/-- The description of a record, which may stand inside another one. -/
def ofJson? (nested : Bool) : Json → Option Description
  | .object members =>
    match (Json.field? "type" members).bind (Json.form? forms nested) with
    | some "object" => (single? (fieldMembers members)).join.map object
    | some "union" => do
      let discriminator ← (← Json.field? "discriminator" members).string?
      let options ← (single? (optionMembers members)).join
      return union discriminator options
    | some "number" => numberOfMembers? members
    | some "enum" => (Json.field? "values" members).bind fun json => json.strings?.map enum
    | some "literal" => (Json.field? "value" members).map literal
    | some "array" => (single? (innerMembers "items" members)).join.map array
    | some "optional" => (single? (innerMembers "inner" members)).join.map optional
    | some "nullable" => (single? (innerMembers "inner" members)).join.map nullable
    | some form => ofName? form
    | none => none
  | .array [form] =>
    match Json.form? forms nested form with
    | some "number" => numberOfItems? []
    | some form => ofName? form
    | none => none
  | .array [form, item] =>
    match Json.form? forms nested form with
    | some "object" => (fieldsOfJson? item).map object
    | some "number" => numberOfItems? [item]
    | some "enum" => item.strings?.map enum
    | some "literal" => some (literal item)
    | some "array" => (ofJson? true item).map array
    | some "optional" => (ofJson? true item).map optional
    | some "nullable" => (ofJson? true item).map nullable
    | _ => none
  | .array [form, first, second] =>
    match Json.form? forms nested form with
    | some "union" => do
      let discriminator ← first.string?
      let options ← listOfJson? second
      return union discriminator options
    | some "number" => numberOfItems? [first, second]
    | _ => none
  | .array (form :: items) =>
    if Json.form? forms nested form == some "number" then numberOfItems? items else none
  | _ => none

def fieldsOfJson? : Json → Option (List (String × Description))
  | .array items => fieldListOfJson? items
  | _ => none

def fieldListOfJson? : List Json → Option (List (String × Description))
  | [] => some []
  | .array [.string name, field] :: rest => do
    let field ← ofJson? true field
    let others ← fieldListOfJson? rest
    return (name, field) :: others
  | _ => none

def listOfJson? : Json → Option (List Description)
  | .array items => itemsOfJson? items
  | _ => none

def itemsOfJson? : List Json → Option (List Description)
  | [] => some []
  | item :: rest => do
    let description ← ofJson? true item
    let others ← itemsOfJson? rest
    return description :: others

def fieldMembers : List (String × Json) → List (Option (List (String × Description)))
  | [] => []
  | (name, item) :: rest =>
    if name == "fields" then fieldsOfJson? item :: fieldMembers rest else fieldMembers rest

def optionMembers : List (String × Json) → List (Option (List Description))
  | [] => []
  | (name, item) :: rest =>
    if name == "options" then listOfJson? item :: optionMembers rest else optionMembers rest

def innerMembers (wanted : String) : List (String × Json) → List (Option Description)
  | [] => []
  | (name, item) :: rest =>
    if name == wanted then ofJson? true item :: innerMembers wanted rest
    else innerMembers wanted rest

end

def parse? (text : String) (reader : Json.FloatReader := .scaled) : Option Description :=
  (Json.parse? text reader).bind (ofJson? false)

/-- The constant of a literal; an array or an object is none, and is given back. -/
def constantOf : Json → Except Json Constant
  | .string text => .ok (.text text)
  | .bool flag => .ok (.flag flag)
  | .null => .ok .null
  | .integer n => .ok (.number (.ofInt n))
  | .float x => .ok (.number x)
  | other => .error other

def checks (int : Bool) (min max : Option Binary64) : List NumberCheck :=
  (if int then [.int] else []) ++ (min.map (.min · true)).toList ++ (max.map (.max · true)).toList

mutual

/-- The schema of a description, or the first literal that no schema can hold. -/
def toSchema : Description → Except Json Schema
  | object fields => (toSchemaFields fields).map .object
  | union discriminator options => (toSchemas options).map (.union discriminator)
  | string => .ok .string
  | boolean => .ok .boolean
  | date => .ok .date
  | null => .ok .null
  | bytes => .ok .byteBuffer
  | number int min max => .ok (.number (checks int min max))
  | enum values => .ok (.enum values)
  | literal value => (constantOf value).map .literal
  | array items => items.toSchema.map .array
  | optional inner => inner.toSchema.map .optional
  | nullable inner => inner.toSchema.map .nullable
  | bigint => .ok .bigint
  | any => .ok .any

def toSchemas : List Description → Except Json (List Schema)
  | [] => .ok []
  | description :: rest => do
    let schema ← description.toSchema
    let others ← toSchemas rest
    return schema :: others

def toSchemaFields : List (String × Description) → Except Json (List (String × Schema))
  | [] => .ok []
  | (name, description) :: rest => do
    let schema ← description.toSchema
    let others ← toSchemaFields rest
    return (name, schema) :: others

end

/-- The report of a literal that no schema can hold; its text is compact and its members sorted. -/
def literalMessage (value : Json) : String :=
  s!"schema literal must be a string, number, boolean or null, got: {value.sorted.compact}"

end Description

end Positional
