import Positional.Program.Basic
import Positional.Wire.Scalar

/-!
# Running a program to write a document

Each block writes on its own from the document. A discriminator writes its tag and then the option
that the tag selects. What a program appends does not depend on the buffer, so it has an emission: the
concatenation of its blocks' emissions.
-/

namespace Positional

namespace Value

def require (data : Value) (path : Path) : Except Error Value :=
  match data.lookup path with
  | some value => .ok value
  | none => .error (.missingValue path)

def requireArray (data : Value) (path : Path) : Except Error (List Value) :=
  match data.require path with
  | .ok (.array items) => .ok items
  | .ok other => .error (.typeMismatch path "array" other.variantName)
  | .error error => .error error

/-- The tag that a discriminator writes, with the path that reports name. A presence tag is made
from the slot; any other must be in the document. -/
def discriminatorTag (data : Value) (path : Path) (field : String) : Except Error (Value × Path) :=
  if Block.tellsPresence field then .ok (.uint (presenceTag (data.lookup path)), path)
  else (data.require (path.child field)).map (·, path.child field)

end Value

/-- The flags among array elements, or the mismatch of the first element that is none. -/
def flagsOf (path : Path) : (index : Nat) → List Value → Except Error (List Bool)
  | _, [] => .ok []
  | index, .bool flag :: rest => (flagsOf path (index + 1) rest).map (flag :: ·)
  | index, other :: _ =>
    .error (.typeMismatch (path.child (toString index)) "boolean" other.variantName)

/-- Appends scalars one after the other. Reports name them by index. -/
def putScalars (kind : Kind) (path : Path) : (index : Nat) → List Value → Writer Unit
  | _, [] => return ()
  | index, item :: rest => do
    kind.put (path.child (toString index)) item
    putScalars kind path (index + 1) rest

/-- Appends the elements of a flat array, of which flags are packed. -/
def putElements (kind : Kind) (path : Path) (items : List Value) : Writer Unit :=
  match kind with
  | .boolean => do
    let flags ← Writer.ofExcept (flagsOf path 0 items)
    Writer.lengthPrefixed (Wire.packBits flags)
  | kind => putScalars kind path 0 items

mutual

/-- Appends what a block writes for a document. -/
def Block.put : Block → Value → Writer Unit
  | .primitive kind path, data => do
    Writer.ofExcept kind.check
    match kind with
    | .null => return ()
    | kind =>
      let value ← Writer.ofExcept (data.require path)
      kind.put path value
  | .array element inner path, data => do
    Writer.ofExcept element.check
    let items ← Writer.ofExcept (data.requireArray path)
    Writer.varint items.length
    match element with
    | .object => items.forM fun item => Block.putAll inner item
    | .scalar kind => putElements kind path items
  | .discriminator kind options field path, data => do
    Writer.ofExcept kind.check
    let (tag, tagPath) ← Writer.ofExcept (data.discriminatorTag path field)
    kind.put tagPath tag
    Block.putOption options tag data

def Block.putAll : List Block → Value → Writer Unit
  | [], _ => return ()
  | block :: rest, data => do
    block.put data
    Block.putAll rest data

/-- Appends what the first option writes that the tag carries; without one, nothing. -/
def Block.putOption : List (Tag × List Block) → Value → Value → Writer Unit
  | [], _, _ => return ()
  | (option, body) :: rest, tag, data =>
    if option.matchesValue tag then Block.putAll body data else Block.putOption rest tag data

end

def emitElements (kind : Kind) (path : Path) (items : List Value) : Emission :=
  match kind with
  | .boolean => .ofExcept ((flagsOf path 0 items).map (Wire.lengthPrefixed ∘ Wire.packBits))
  | kind => .concat (items.mapIdx fun index item => kind.emit (path.child (toString index)) item)

mutual

/-- What a block writes for a document. -/
def Block.emit : Block → Value → Emission
  | .primitive .null _, _ => .empty
  | .primitive (.unknown name) _, _ => .fail (.unknownKind name)
  | .primitive kind path, data =>
    match data.require path with
    | .ok value => kind.emit path value
    | .error error => .fail error
  | .array element inner path, data =>
    match element.check, data.requireArray path with
    | .error error, _ => .fail error
    | .ok (), .error error => .fail error
    | .ok (), .ok items =>
      .ofBytes (Wire.varint items.length) ++
        match element with
        | .object => .concat (items.map fun item => Block.emitAll inner item)
        | .scalar kind => emitElements kind path items
  | .discriminator kind options field path, data =>
    match kind.check, data.discriminatorTag path field with
    | .error error, _ => .fail error
    | .ok (), .error error => .fail error
    | .ok (), .ok (tag, tagPath) => kind.emit tagPath tag ++ Block.emitOption options tag data

def Block.emitAll : List Block → Value → Emission
  | [], _ => .empty
  | block :: rest, data => block.emit data ++ Block.emitAll rest data

def Block.emitOption : List (Tag × List Block) → Value → Value → Emission
  | [], _, _ => .empty
  | (option, body) :: rest, tag, data =>
    if option.matchesValue tag then Block.emitAll body data else Block.emitOption rest tag data

end

namespace Block

theorem emitOption_eq (options : List (Tag × Program)) (tag data : Value) :
    emitOption options tag data =
      match select options tag with
      | some body => emitAll body data
      | none => .empty := by
  induction options with
  | nil => rfl
  | cons option rest ih =>
    obtain ⟨head, body⟩ := option
    by_cases h : head.matchesValue tag = true
    · simp [emitOption, select, h]
    · simp only [Bool.not_eq_true] at h
      simp [emitOption, select, h, ih]

end Block

end Positional
