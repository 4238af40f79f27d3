import Positional.Codec
import Positional.Proofs.Document.Lens
import Positional.Proofs.Program.Yields

/-!
# Decoding lays assignments over the root

A decoder can also carry the document along and assign each value as soon as it is read. It then
holds the whole document all the time and could look at it; `Block.readOver_eq` shows that this
makes no difference: the bytes settle the outcome, the place where the run ends and the assignments,
and the root only receives them. The assignments are at the targets of the program, so what is apart
from these is in the result as it was in the root.
-/

namespace Positional

-- ---------------------------------------------------------------------------
-- A decoder that carries the document along
-- ---------------------------------------------------------------------------

mutual

/-- Reads a block into a document: what is read is assigned at once, a tag before the option that it
selects. The elements of an array are documents of their own. -/
def Block.readOver (limits : Limits) : Block → (depth : Nat) → (data : Value) → Reader Value
  | .primitive kind path, _, data => return Value.assign (← kind.read) data path
  | .array .object inner path, depth, data => do
    let count ← Reader.elementCount limits
    if limits.depth < depth + 1 then throw (.depthExceeded limits.depth)
    else
      let items ← Reader.times count (Block.readAllOver limits inner (depth + 1) (.object []))
      return Value.assign (.array items) data path
  | .array (.scalar kind) _ path, _, data => do
    kind.check
    let count ← Reader.elementCount limits
    return Value.assign (.array (← Reader.elements kind count)) data path
  | .discriminator kind options field path, depth, data => do
    let tag ← kind.read
    let tagged := if Block.tellsPresence field then data else Value.assign tag data (path.child field)
    Block.readOptionOver limits options tag depth tagged

def Block.readAllOver (limits : Limits) :
    List Block → (depth : Nat) → (data : Value) → Reader Value
  | [], _, data => return data
  | block :: rest, depth, data => do
    let done ← block.readOver limits depth data
    Block.readAllOver limits rest depth done

def Block.readOptionOver (limits : Limits) :
    List (Tag × List Block) → (tag : Value) → (depth : Nat) → (data : Value) → Reader Value
  | [], _, _, data => return data
  | (option, body) :: rest, tag, depth, data =>
    if option.matchesValue tag then Block.readAllOver limits body depth data
    else Block.readOptionOver limits rest tag depth data

end

namespace Program

def readOver (program : Program) (options : DecodeOptions) (root : Value) : Reader Value := do
  let data ← Block.readAllOver options.toLimits program 0 root
  let cursor ← get
  if options.strict && 0 < cursor.remaining then throw (.trailingBytes cursor.remaining)
  else return data

end Program

namespace Value

@[simp] theorem assignAll_nil (data : Value) : data.assignAll [] = data := rfl

@[simp] theorem assignAll_singleton (data new : Value) (path : Path) :
    data.assignAll [(path, new)] = assign new data path := rfl

theorem assignAll_tagWrites (data tag : Value) (path : Path) (field : String) :
    data.assignAll (tagWrites path field tag) =
      if Block.tellsPresence field then data else assign tag data (path.child field) := by
  rw [tagWrites]
  split <;> rfl

end Value

namespace Block

mutual

/-- The document that is carried along has no influence on the reading: it is the one that the
assignments make of it. -/
theorem readOver_eq (limits : Limits) : (block : Block) → (depth : Nat) → (data : Value) →
    block.readOver limits depth data = data.assignAll <$> block.read limits depth
  | .primitive kind path, _, data => by
    simp [readOver, read]
  | .array .object inner path, depth, data => by
    have hinner : readAllOver limits inner (depth + 1) (.object []) =
        Value.ofWrites <$> readAll limits inner (depth + 1) :=
      readAllOver_eq limits inner (depth + 1) (.object [])
    rw [readOver, read, hinner, map_bind]
    refine bind_congr fun count => ?_
    split <;> simp
  | .array (.scalar kind) inner path, _, data => by
    simp [readOver, read]
  | .discriminator kind options field path, depth, data => by
    rw [readOver, read, map_bind]
    refine bind_congr fun tag => ?_
    simp [readOptionOver_eq limits options, Value.assignAll_append, Value.assignAll_tagWrites]

theorem readAllOver_eq (limits : Limits) : (blocks : List Block) → (depth : Nat) →
    (data : Value) → readAllOver limits blocks depth data =
      data.assignAll <$> readAll limits blocks depth
  | [], _, data => by simp [readAllOver, readAll]
  | block :: rest, depth, data => by
    rw [readAllOver, readAll, readOver_eq limits block, bind_map_left, map_bind]
    refine bind_congr fun first => ?_
    simp [readAllOver_eq limits rest, Value.assignAll_append]

theorem readOptionOver_eq (limits : Limits) : (options : List (Tag × List Block)) →
    (tag : Value) → (depth : Nat) → (data : Value) → readOptionOver limits options tag depth data =
      data.assignAll <$> readOption limits options tag depth
  | [], _, _, data => by simp [readOptionOver, readOption]
  | (option, body) :: rest, tag, depth, data => by
    rw [readOptionOver, readOption]
    split
    · exact readAllOver_eq limits body depth data
    · exact readOptionOver_eq limits rest tag depth data

end

-- ---------------------------------------------------------------------------
-- Where a program assigns
-- ---------------------------------------------------------------------------

mutual

/-- The places where a block can assign. A presence tag has none, and the elements of an array are
no part of the document that the array is in. -/
def targets : Block → List Path
  | .primitive _ path => [path]
  | .array _ _ path => [path]
  | .discriminator _ options field path =>
    (if tellsPresence field then [] else [path.child field]) ++ targetsOptions options

def targetsAll : List Block → List Path
  | [] => []
  | block :: rest => block.targets ++ targetsAll rest

def targetsOptions : List (Tag × List Block) → List Path
  | [] => []
  | (_, body) :: rest => targetsAll body ++ targetsOptions rest

end

theorem mem_of_tagWrites {path : Path} (h : write ∈ tagWrites path field tag) :
    write.1 ∈ if tellsPresence field then [] else [path.child field] := by
  rw [tagWrites] at h
  split at h
  · exact absurd h List.not_mem_nil
  · rename_i hf
    rw [if_neg hf]
    exact List.mem_map_of_mem h

mutual

theorem mem_targets : (block : Block) → block.Yields writes → ∀ write ∈ writes,
    write.1 ∈ block.targets
  | .primitive kind path, h, write, hw => by
    obtain ⟨value, -, rfl⟩ := h
    exact List.mem_map_of_mem hw
  | .array .object inner path, h, write, hw => by
    obtain ⟨items, rfl, -⟩ := h
    exact List.mem_map_of_mem hw
  | .array (.scalar kind) inner path, h, write, hw => by
    obtain ⟨items, rfl, -⟩ := h
    exact List.mem_map_of_mem hw
  | .discriminator kind options field path, h, write, hw => by
    obtain ⟨tag, body, -, hbody, rfl⟩ := h
    rw [targets]
    rcases List.mem_append.mp hw with htag | hin
    · exact List.mem_append_left _ (mem_of_tagWrites htag)
    · exact List.mem_append_right _ (mem_targetsOptions options hbody write hin)

theorem mem_targetsAll : (blocks : List Block) → YieldsAll blocks writes → ∀ write ∈ writes,
    write.1 ∈ targetsAll blocks
  | [], h, write, hw => absurd (h ▸ hw) List.not_mem_nil
  | block :: rest, h, write, hw => by
    obtain ⟨first, others, hfirst, hothers, rfl⟩ := h
    rcases List.mem_append.mp hw with hin | hin
    · exact List.mem_append_left _ (mem_targets block hfirst write hin)
    · exact List.mem_append_right _ (mem_targetsAll rest hothers write hin)

theorem mem_targetsOptions : (options : List (Tag × List Block)) →
    YieldsOption options tag writes → ∀ write ∈ writes, write.1 ∈ targetsOptions options
  | [], h, write, hw => absurd (h ▸ hw) List.not_mem_nil
  | (option, body) :: rest, h, write, hw => by
    rw [YieldsOption] at h
    rw [targetsOptions]
    split at h
    · exact List.mem_append_left _ (mem_targetsAll body h write hw)
    · exact List.mem_append_right _ (mem_targetsOptions rest h write hw)

end

end Block

-- ---------------------------------------------------------------------------
-- Whole runs
-- ---------------------------------------------------------------------------

namespace Program

/-- What a run assigns, over any root. -/
def assignments (program : Program) (options : DecodeOptions) : Reader Writes := do
  let writes ← Block.readAll options.toLimits program 0
  let cursor ← get
  if options.strict && 0 < cursor.remaining then throw (.trailingBytes cursor.remaining)
  else return writes

theorem read_eq_map (program : Program) (options : DecodeOptions) (root : Value) :
    program.read options root = root.assignAll <$> program.assignments options := by
  rw [read, assignments, map_bind]
  refine bind_congr fun writes => ?_
  rw [map_bind]
  refine bind_congr fun cursor => ?_
  split <;> simp

/-- Carrying the document along or assigning at the end is the same. -/
theorem readOver_eq_read (program : Program) (options : DecodeOptions) (root : Value) :
    program.readOver options root = program.read options root := by
  rw [readOver, read, Block.readAllOver_eq, bind_map_left]

theorem assignments_yields
    (h : (assignments program options).run cursor = (.ok writes, last)) :
    Block.YieldsAll program writes := by
  obtain ⟨own, mid, hown, h⟩ := Reader.bind_ok.mp h
  obtain ⟨_, _, hget, h⟩ := Reader.bind_ok.mp h
  split at h
  · exact absurd h Reader.throw_ok
  · obtain ⟨rfl, rfl⟩ := Reader.pure_ok.mp h
    exact Block.yieldsAll_of_read program hown

/-- The bytes alone decide how a run ends, where it ends and what it assigns: over every root a
decoder that carries the document along ends in the same way, at the same place, and with the root
as those assignments in order leave it. Each of them is at a target of the program, and what is apart
from all of them is as it was in the root. -/
theorem read_overlay (program : Program) (options : DecodeOptions) (cursor : Cursor) :
    ∃ (outcome : Except Error Writes) (last : Cursor),
      (∀ root, (program.readOver options root).run cursor = (outcome.map root.assignAll, last) ∧
        (program.read options root).run cursor = (outcome.map root.assignAll, last)) ∧
      ∀ writes, outcome = .ok writes →
        (∀ write ∈ writes, write.1 ∈ Block.targetsAll program) ∧
        ∀ (root : Value) (q : Path), (∀ write ∈ writes, Path.Apart write.1 q) →
          (root.assignAll writes).lookup q = root.lookup q := by
  have hrun : ∀ root, (program.read options root).run cursor =
      ((((program.assignments options).run cursor).1).map root.assignAll,
        ((program.assignments options).run cursor).2) := by
    intro root
    rw [read_eq_map, Reader.run_map]
  refine ⟨_, _, fun root => ⟨readOver_eq_read program options root ▸ hrun root, hrun root⟩, ?_⟩
  intro writes hwrites
  refine ⟨fun write hw => ?_, fun root q happ => Value.lookup_assignAll_of_apart root happ⟩
  have hyields := assignments_yields (Prod.ext hwrites rfl)
  exact Block.mem_targetsAll program hyields write hw

/-- A tag and a flag take the place of a number in the root, an array that of a null; the text next
to them is apart from the targets and stays. -/
theorem read_overlay_union :
    let program : Program := [
      .discriminator .uint [(.int 1, [.primitive .boolean ["a", "b"]])] "kind" ["a"],
      .array .object [.primitive .null ["x"]] ["list"]]
    let root : Value :=
      .object [("list", .null), ("a", .int 5), ("keep", .object [("text", .text "kept")])]
    ∃ value, (program.read {} root).run (Cursor.start [1, 1, 2, 9]) = (.ok value, ⟨3, [9]⟩) ∧
      (program.readOver {} root).run (Cursor.start [1, 1, 2, 9]) = (.ok value, ⟨3, [9]⟩) ∧
      value.lookup ["a", "b"] = some (.bool true) ∧
      value.lookup ["keep", "text"] = some (.text "kept") := by
  intro program root
  obtain ⟨outcome, last, hrun, hwrites⟩ := read_overlay program {} (Cursor.start [1, 1, 2, 9])
  obtain ⟨hover, hread⟩ := hrun root
  cases outcome with
  | error error => cases hread
  | ok writes =>
    obtain ⟨htargets, hframe⟩ := hwrites writes rfl
    have happ : ∀ target ∈ Block.targetsAll program, Path.Apart target ["keep", "text"] := by
      simp [program, Block.targetsAll, Block.targets, Block.targetsOptions, Block.tellsPresence,
        Path.child, Path.Apart]
    have hkept := hframe root ["keep", "text"] fun write hw => happ write.1 (htargets write hw)
    obtain rfl : ⟨3, [9]⟩ = last := congrArg Prod.snd hread
    have hflag : ((program.read {} root).run (Cursor.start [1, 1, 2, 9])).1.toOption.bind
        (·.lookup ["a", "b"]) = some (.bool true) := rfl
    rw [hread] at hflag
    exact ⟨root.assignAll writes, hread, hover, hflag, hkept⟩

end Program

end Positional
