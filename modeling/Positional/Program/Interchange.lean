import Positional.Json.Parser
import Positional.Json.Printer
import Positional.Json.Record
import Positional.Program.Basic

/-!
# Programs as text

The interchange form of a program is a JSON array of records, one for each block, with the name of
the block's form under `block`. A record may also be written by position: the form and then its
fields in order. A record inside another may give the place of its form instead of the name.
-/

namespace Positional

namespace Tag

def toJson : Tag → Json
  | .bool flag => .bool flag
  | .int n => .integer n.toInt
  | .float x => .ofBinary64 x
  | .string text => .string text

/-- A number without fraction and exponent is an integer tag if it is a signed 64-bit integer. -/
def ofJson? : Json → Option Tag
  | .bool flag => some (.bool flag)
  | .integer n =>
    match int64? n with
    | some n => some (.int n)
    | none => some (.float (.ofInt n))
  | .float x => some (.float x)
  | .string text => some (.string text)
  | _ => none

end Tag

namespace Path

def toJson (path : Path) : Json :=
  .array (path.map .string)

end Path

namespace Block

mutual

def toJson : Block → Json
  | primitive kind path =>
    .object [("block", .string "primitive"), ("type", .string kind.name), ("path", path.toJson)]
  | array element inner path =>
    .object [("block", .string "array"), ("type", .string element.name),
      ("blocks", .array (toJsonAll inner)), ("path", path.toJson)]
  | discriminator kind options field path =>
    .object [("block", .string "discriminator"), ("type", .string kind.name),
      ("options", .array (toJsonOptions options)), ("discriminator", .string field),
      ("path", path.toJson)]

def toJsonAll : List Block → List Json
  | [] => []
  | block :: rest => block.toJson :: toJsonAll rest

def toJsonOptions : List (Tag × List Block) → List Json
  | [] => []
  | (tag, body) :: rest => .array [tag.toJson, .array (toJsonAll body)] :: toJsonOptions rest

end

def primitive? (kind path : Option Json) : Option Block := do
  return primitive (.ofName (← (← kind).string?)) (← (← path).strings?)

def array? (element : Option Json) (inner : Option Program) (path : Option Json) :
    Option Block := do
  return array (.ofName (← (← element).string?)) (← inner) (← (← path).strings?)

def discriminator? (kind : Option Json) (options : Option (List (Tag × Program)))
    (field path : Option Json) : Option Block := do
  return discriminator (.ofName (← (← kind).string?)) (← options) (← (← field).string?)
    (← (← path).strings?)

def forms : List String :=
  ["primitive", "array", "discriminator"]

mutual

/-- The block of a record, which may stand inside another one. -/
def ofJson? (nested : Bool) : Json → Option Block
  | .object members =>
    match (Json.field? "block" members).bind (Json.form? forms nested) with
    | some "primitive" => primitive? (Json.field? "type" members) (Json.field? "path" members)
    | some "array" =>
      array? (Json.field? "type" members) (single? (innerMembers members)).join
        (Json.field? "path" members)
    | some "discriminator" =>
      discriminator? (Json.field? "type" members) (single? (optionMembers members)).join
        (Json.field? "discriminator" members) (Json.field? "path" members)
    | _ => none
  | .array [form, kind, path] =>
    if Json.form? forms nested form == some "primitive" then primitive? (some kind) (some path)
    else none
  | .array [form, element, inner, path] =>
    if Json.form? forms nested form == some "array" then
      array? (some element) (programOfJson? true inner) (some path)
    else none
  | .array [form, kind, options, field, path] =>
    if Json.form? forms nested form == some "discriminator" then
      discriminator? (some kind) (optionsOfJson? options) (some field) (some path)
    else none
  | _ => none

def programOfJson? (nested : Bool) : Json → Option Program
  | .array items => blocksOfJson? nested items
  | _ => none

def blocksOfJson? (nested : Bool) : List Json → Option Program
  | [] => some []
  | item :: rest => do
    let block ← ofJson? nested item
    let others ← blocksOfJson? nested rest
    return block :: others

def optionsOfJson? : Json → Option (List (Tag × Program))
  | .array items => optionListOfJson? items
  | _ => none

def optionListOfJson? : List Json → Option (List (Tag × Program))
  | [] => some []
  | .array [tag, body] :: rest => do
    let tag ← Tag.ofJson? tag
    let body ← programOfJson? true body
    let others ← optionListOfJson? rest
    return (tag, body) :: others
  | _ => none

def innerMembers : List (String × Json) → List (Option Program)
  | [] => []
  | (name, item) :: rest =>
    if name == "blocks" then programOfJson? true item :: innerMembers rest
    else innerMembers rest

def optionMembers : List (String × Json) → List (Option (List (Tag × Program)))
  | [] => []
  | (name, item) :: rest =>
    if name == "options" then optionsOfJson? item :: optionMembers rest else optionMembers rest

end

end Block

namespace Program

def toJson (program : Program) : Json :=
  .array (Block.toJsonAll program)

def print (program : Program) : String :=
  program.toJson.compact

def parse? (text : String) (reader : Json.FloatReader := .scaled) : Option Program :=
  (Json.parse? text reader).bind (Block.programOfJson? false)

end Program

end Positional
