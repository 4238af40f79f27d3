import Positional.Proofs.Program.Moved
import Positional.Proofs.Schema.Compiled

/-!
# Schemas moved below a path

Below a path a schema compiles to its own program with the path in front of the blocks, and it fails
there for the same causes. As a moved program writes what the program writes for the value at the
path, a schema means the same at the root, in a field, behind a wrapper and in an element.
-/

namespace Positional

namespace Block

theorem movedAll_append (base : Path) (first second : Program) :
    movedAll base (first ++ second) = movedAll base first ++ movedAll base second := by
  simp only [movedAll_eq_map, List.map_append]

theorem movedOptions_append (base : Path) (first second : List (Tag × Program)) :
    movedOptions base (first ++ second) = movedOptions base first ++ movedOptions base second := by
  simp only [movedOptions_eq_map, List.map_append]

theorem movedOptions_tagged (base : Path) (tags : List Tag) (body : Program) :
    movedOptions base (tags.map (·, body)) = tags.map (·, movedAll base body) := by
  rw [movedOptions_eq_map, List.map_map]
  rfl

theorem moved_ofElement (base : Path) (inner : Program) (path : Path) :
    (ofElement inner path).moved base = ofElement inner (base ++ path) := by
  unfold ofElement
  split <;> rfl

theorem moves_ofMembers (base : Path) (discriminator : String) (path : Path)
    (members : List (Tag × Program)) :
    Moves (moved base) (ofMembers discriminator path members)
      (ofMembers discriminator (base ++ path) (movedOptions base members)) := by
  have htags : (movedOptions base members).map (·.1.tagClass) = members.map (·.1.tagClass) := by
    rw [movedOptions_eq_map, List.map_map]
    rfl
  rw [ofMembers, ofMembers, htags]
  split
  · rw [Moves, moved, movedOptions_eq_map, movedOptions_eq_map, List.map_map, List.map_map]
    rfl
  · exact ⟨_, rfl, rfl⟩

/-- A moved block is at the moved place of a tag when the block is at the place of the tag. -/
theorem filter_movedAll (base path : Path) (discriminator : String) (blocks : Program) :
    (movedAll base blocks).filter (·.path != (base ++ path).child discriminator)
      = movedAll base (blocks.filter (·.path != path.child discriminator)) := by
  have hpath : ∀ block : Block, ((block.moved base).path != (base ++ path).child discriminator)
      = (block.path != path.child discriminator) := by
    intro block
    rw [path_moved, Path.child_append, Bool.eq_iff_iff, bne_iff_ne, bne_iff_ne, ne_eq, ne_eq,
      List.append_cancel_left_eq]
  rw [movedAll_eq_map, movedAll_eq_map, List.filter_map]
  exact congrArg _ (List.filter_congr fun block _ => hpath block)

end Block

open Block (movedAll movedOptions)

namespace Schema

theorem moves_memberTags (base : Path) (discriminator : String) (path : Path) (member : Schema) :
    Moves id (memberTags discriminator path member) (memberTags discriminator (base ++ path) member) := by
  cases member with
  | object fields =>
    simp only [memberTags]
    split
    · split
      · rfl
      · exact ⟨_, rfl, rfl⟩
    · rfl
    · exact ⟨_, rfl, rfl⟩
  | _ => exact ⟨_, rfl, rfl⟩

theorem moves_leaf {schema : Schema} (hk : schema.leafKind? = some kind) (base path : Path)
    (before : Program) : Moves (movedAll base) (schema.compileInto path before)
      (schema.compileInto (base ++ path) (movedAll base before)) := by
  rw [leaf_ok hk, leaf_ok hk, Moves, Block.movedAll_append]
  rfl

mutual

/-- Below a path a schema adds to a moved frame what it adds to the frame, moved. -/
theorem moves_compileInto (base : Path) : (schema : Schema) → (path : Path) → (before : Program) →
    Moves (movedAll base) (schema.compileInto path before)
      (schema.compileInto (base ++ path) (movedAll base before))
  | .object fields, path, before => moves_compileFields base fields path before
  | .union discriminator members, path, before => by
    rw [compileInto, compileInto]
    exact (moves_compileMembers base discriminator members path).bind fun options =>
      (Block.moves_ofMembers base discriminator path options).bind fun _ => rfl
  | .array element, path, before => by
    rw [compileInto, compileInto]
    refine (Moves.refl (element.compileInto [] [])).bind fun inner => ?_
    rw [id, ← Block.moved_ofElement]
    exact .pure (Block.movedAll_append base before [.ofElement inner path]).symm
  | .optional inner, path, before | .nullable inner, path, before => by
    rw [compileInto, compileInto]
    exact (moves_compileInto base inner path []).bind fun wrapped =>
      .pure (Block.movedAll_append base before [.ofSlot wrapped path]).symm
  | .refined accepts inner, path, before => by
    cases ha : isBytesCheck accepts with
    | true =>
      have hleaf : (refined accepts inner).leafKind? = some .buffer := by simp [leafKind?, ha]
      exact moves_leaf hleaf base path before
    | false =>
      simp only [compileInto, ha, Bool.false_eq_true, if_false]
      exact moves_compileInto base inner path before
  | .literal constant, path, before => by
    cases hk : constant.kind? with
    | some kind =>
      have hleaf : (literal constant).leafKind? = some kind := hk
      exact moves_leaf hleaf base path before
    | none =>
      rw [compileInto, compileInto, hk]
      exact ⟨_, rfl, rfl⟩
  | .string, path, before | .enum _, path, before | .boolean, path, before | .date, path, before
  | .null, path, before | .number _, path, before => moves_leaf rfl base path before
  | .transformed _, _, _ | .bigint, _, _ | .any, _, _ => ⟨_, rfl, rfl⟩

theorem moves_compileFields (base : Path) : (fields : List (String × Schema)) → (path : Path) →
    (before : Program) → Moves (movedAll base) (compileFields fields path before)
      (compileFields fields (base ++ path) (movedAll base before))
  | [], _, _ => rfl
  | (name, field) :: rest, path, before => by
    rw [compileFields, compileFields, Path.child_append]
    exact (moves_compileInto base field (path.child name) before).bind fun extended =>
      moves_compileFields base rest path extended

theorem moves_compileMembers (base : Path) (discriminator : String) : (members : List Schema) →
    (path : Path) → Moves (movedOptions base) (compileMembers discriminator path members)
      (compileMembers discriminator (base ++ path) members)
  | [], _ => rfl
  | member :: rest, path => by
    rw [compileMembers, compileMembers]
    refine (moves_memberTags base discriminator path member).bind fun tags =>
      (moves_compileInto base member path []).bind fun body =>
        (moves_compileMembers base discriminator rest path).bind fun others => ?_
    refine .pure ?_
    rw [id, Block.filter_movedAll, Block.movedOptions_append, Block.movedOptions_tagged]

end

open Block (emitAll)

/-- Compiling a schema below a path succeeds when compiling it at the root does, and gives that
program moved; it fails for the same cause. Any program moved below a path writes, for a document with
a value at that path, the bytes that it writes for the value itself, and it fails after the same bytes
for the same cause. -/
theorem compile_emit_moved (schema : Schema) (base : Path) :
    Moves (movedAll base) schema.compile (schema.compileInto base []) ∧
      ∀ (program : Program) (x v : Value), x.lookup base = some v →
        (emitAll (movedAll base program) x).unplaced = (emitAll program v).unplaced := by
  refine ⟨?_, fun program x v h => Block.emitAll_moved h program⟩
  have hmoves := moves_compileInto base schema [] []
  rwa [List.append_nil] at hmoves

/-- Below a field a union fails behind its tag, just as it does at the root. -/
theorem compile_emit_moved_union :
    let schema := union "t" [object [("t", literal (.text "p")), ("n", optional string), ("m", date)]]
    ∃ program, schema.compileInto ["a"] [] = .ok program ∧
      (emitAll program (.object [("a", .object [("t", .text "p")])])).unplaced
        = ⟨[1, 112, 0], some (.missingValue [])⟩ := by
  intro schema
  obtain ⟨hcompile, hemit⟩ := compile_emit_moved schema ["a"]
  refine ⟨_, hcompile, (hemit _ _ (.object [("t", .text "p")]) rfl).trans ?_⟩
  decide +kernel

end Schema

end Positional
