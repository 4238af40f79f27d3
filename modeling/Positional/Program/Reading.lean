import Positional.Program.Basic
import Positional.Wire.Scalar

/-!
# Running a program to read a document

Reading a program yields assignments, in order, that the bytes alone decide; the document they build
is the root with the assignments applied.
-/

namespace Positional

structure Limits where
  /-- The greatest count of elements that an array may announce. -/
  arrayElements : Nat := 16777216
  /-- How deep arrays of objects may nest. -/
  depth : Nat := 64
deriving DecidableEq

/-- The assignments that a run of reading makes, in order. -/
abbrev Writes := List (Path × Value)

namespace Value

def ofWrites (writes : Writes) : Value :=
  (Value.object []).assignAll writes

end Value

namespace Reader

def elementCount (limits : Limits) : Reader Nat := do
  let count := (← varint).toNat
  if limits.arrayElements < count then throw (.arrayTooLarge count limits.arrayElements)
  else return count

def elements (kind : Kind) (count : Nat) : Reader (List Value) :=
  match kind with
  | .boolean => return (← packedFlags count).map Value.bool
  | kind => times count kind.read

end Reader

/-- The assignment of a tag that is read: a presence tag is no part of the data. -/
def tagWrites (path : Path) (field : String) (tag : Value) : Writes :=
  if Block.tellsPresence field then [] else [(path.child field, tag)]

mutual

/-- What a block assigns from the bytes, at some depth of arrays of objects. -/
def Block.read (limits : Limits) : Block → (depth : Nat) → Reader Writes
  | .primitive kind path, _ => return [(path, ← kind.read)]
  | .array .object inner path, depth => do
    let count ← Reader.elementCount limits
    if limits.depth < depth + 1 then throw (.depthExceeded limits.depth)
    else
      let items ← Reader.times count (Value.ofWrites <$> Block.readAll limits inner (depth + 1))
      return [(path, .array items)]
  | .array (.scalar kind) _ path, _ => do
    kind.check
    let count ← Reader.elementCount limits
    return [(path, .array (← Reader.elements kind count))]
  | .discriminator kind options field path, depth => do
    let tag ← kind.read
    let body ← Block.readOption limits options tag depth
    return tagWrites path field tag ++ body

def Block.readAll (limits : Limits) : List Block → (depth : Nat) → Reader Writes
  | [], _ => return []
  | block :: rest, depth => do
    let first ← block.read limits depth
    let others ← Block.readAll limits rest depth
    return first ++ others

/-- What the first option that the tag carries assigns; without one, nothing. -/
def Block.readOption (limits : Limits) :
    List (Tag × List Block) → (tag : Value) → (depth : Nat) → Reader Writes
  | [], _, _ => return []
  | (option, body) :: rest, tag, depth =>
    if option.matchesValue tag then Block.readAll limits body depth
    else Block.readOption limits rest tag depth

end

namespace Block

theorem readOption_eq (limits : Limits) (options : List (Tag × Program)) (tag : Value)
    (depth : Nat) :
    readOption limits options tag depth =
      match select options tag with
      | some body => readAll limits body depth
      | none => return [] := by
  induction options with
  | nil => rfl
  | cons option rest ih =>
    obtain ⟨head, body⟩ := option
    by_cases h : head.matchesValue tag = true
    · simp [readOption, select, h]
    · simp only [Bool.not_eq_true] at h
      simp [readOption, select, h, ih]

end Block

end Positional
