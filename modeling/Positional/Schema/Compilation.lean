import Positional.Program.Basic
import Positional.Schema.Basic

/-!
# Compiling schemas

A schema becomes the blocks of its leaves, in order of declaration. Objects leave no trace but the
paths below them; unions go in front of everything their frame holds so far. Arrays, optional slots
and unions begin frames of their own.
-/

namespace Positional

namespace Schema

/-- Numbers are floats unless they are constrained to integers; integers with a lower bound of zero
are unsigned. -/
def numberKind (checks : List NumberCheck) : Kind :=
  let atZero : NumberCheck → Bool
    | .min bound _ => bound.magnitude == 0
    | _ => false
  if checks.contains .int then
    if checks.any atZero then .uint else .int
  else .float

end Schema

namespace Constant

def kind? : Constant → Option Kind
  | text _ => some .string
  | number _ => some .float
  | flag _ => some .boolean
  | bigint _ | null => none

def tag? : Constant → Option Tag
  | text content => some (.string content)
  | number x => some (.float x)
  | flag value => some (.bool value)
  | bigint _ | null => none

end Constant

/-- What the tags of a union have in common. -/
inductive TagClass where
  | int
  | float
  | boolean
  | string
deriving DecidableEq

namespace TagClass

def isNumeric : TagClass → Bool
  | int | float => true
  | boolean | string => false

def kind : TagClass → Kind
  | int => .int
  | float => .float
  | boolean => .boolean
  | string => .string

/-- The class of several tags: theirs if they agree, floats if all are numbers. -/
def unify? : List TagClass → Option TagClass
  | [] => some .float
  | first :: rest =>
    if rest.all (· == first) then some first
    else if first.isNumeric && rest.all isNumeric then some .float
    else none

end TagClass

namespace Tag

/-- An integral float counts as an integer. -/
def tagClass : Tag → TagClass
  | .string _ => .string
  | .bool _ => .boolean
  | .int _ => .int
  | .float x => if x.isIntegral then .int else .float

def coerce (tagClass : TagClass) (tag : Tag) : Tag :=
  match tagClass, tag with
  | .int, .float x => .int (saturate (x.toInt?.getD 0))
  | .float, .int n => .float (.ofInt n.toInt)
  | _, tag => tag

end Tag

namespace Block

/-- An array of elements with this program. A lone scalar at the root of the element makes the array
flat. -/
def ofElement (inner : Program) (path : Path) : Block :=
  match inner with
  | [.primitive kind []] => .array (.scalar kind) [] path
  | inner => .array .object inner path

/-- A slot that may be absent or null, around the blocks of its value. -/
def ofSlot (wrapped : Program) (path : Path) : Block :=
  .discriminator .uint
    [(.int 0, []), (.int 1, wrapped), (.int 2, [.primitive .null path])] "" path

def ofMembers (discriminator : String) (path : Path) (members : List (Tag × Program)) :
    Except Error Block :=
  match TagClass.unify? (members.map (·.1.tagClass)) with
  | some tagClass =>
    .ok (.discriminator tagClass.kind
      (members.map fun member => (member.1.coerce tagClass, member.2)) discriminator path)
  | none => .error (.undecidableDiscriminator path)

end Block

namespace Schema

/-- The tags under which a union member is known: the literal or the enumeration in its first field
of the discriminator's name. -/
def memberTags (discriminator : String) (path : Path) (member : Schema) :
    Except Error (List Tag) :=
  match member with
  | object fields =>
    match fields.lookup discriminator with
    | some (literal constant) =>
      match constant.tag? with
      | some tag => .ok [tag]
      | none => .error .unsupportedLiteral
    | some (enum (first :: rest)) => .ok ((first :: rest).map .string)
    | _ => .error (.invalidUnionMember path discriminator)
  | _ => .error (.invalidUnionMember path discriminator)

mutual

/-- The frame of blocks extended by a schema at a path. -/
def compileInto : Schema → Path → Program → Except Error Program
  | object fields, path, frame => compileFields fields path frame
  | union discriminator members, path, frame => do
    let members ← compileMembers discriminator path members
    let block ← Block.ofMembers discriminator path members
    return block :: frame
  | string, path, frame => .ok (frame ++ [.primitive .string path])
  | enum _, path, frame => .ok (frame ++ [.primitive .string path])
  | boolean, path, frame => .ok (frame ++ [.primitive .boolean path])
  | date, path, frame => .ok (frame ++ [.primitive .date path])
  | null, path, frame => .ok (frame ++ [.primitive .null path])
  | number checks, path, frame => .ok (frame ++ [.primitive (numberKind checks) path])
  | literal constant, path, frame =>
    match constant.kind? with
    | some kind => .ok (frame ++ [.primitive kind path])
    | none => .error .unsupportedLiteral
  | array element, path, frame => do
    let inner ← element.compileInto [] []
    return frame ++ [.ofElement inner path]
  | optional inner, path, frame => do
    let wrapped ← inner.compileInto path []
    return frame ++ [.ofSlot wrapped path]
  | nullable inner, path, frame => do
    let wrapped ← inner.compileInto path []
    return frame ++ [.ofSlot wrapped path]
  | refined accepts inner, path, frame =>
    if isBytesCheck accepts then .ok (frame ++ [.primitive .buffer path])
    else inner.compileInto path frame
  | transformed _, _, _ => .error .unsupportedEffect
  | bigint, path, _ => .error (.unsupportedSchema path)
  | any, path, _ => .error (.unsupportedSchema path)

def compileFields : List (String × Schema) → Path → Program → Except Error Program
  | [], _, frame => .ok frame
  | (name, field) :: rest, path, frame => do
    let extended ← field.compileInto (path.child name) frame
    compileFields rest path extended

/-- The members of a union under their tags, each without the tag's own leaf. -/
def compileMembers (discriminator : String) (path : Path) :
    List Schema → Except Error (List (Tag × Program))
  | [] => .ok []
  | member :: rest => do
    let tags ← memberTags discriminator path member
    let body ← member.compileInto path []
    let others ← compileMembers discriminator path rest
    return tags.map (·, body.filter (·.path != path.child discriminator)) ++ others

end

def compile (schema : Schema) : Except Error Program :=
  schema.compileInto [] []

end Schema

end Positional
