import Positional.Proofs.Schema.Nodes

/-!
# What programs of schemas look like

Blocks are read and written one by one, and each form of block could be built with parts that no
schema gives it. Compiling builds none of these, at whatever depth (`compile_formed`): kinds are
known, flat arrays hold no blocks, discriminators without a field are slots as `Block.ofSlot` lays
them out, and those with a field have tags of their own kind. What an option holds lies below its
discriminator, and never in the place of its tag.
-/

namespace Positional

namespace Tag

def isOf : Kind → Tag → Bool
  | .int, .int _ | .float, .float _ | .boolean, .bool _ | .string, .string _ => true
  | _, _ => false

theorem isOf_coerce {tag : Tag} {tagClass : TagClass}
    (h : tag.tagClass = tagClass ∨ tag.tagClass.isNumeric ∧ tagClass = .float) :
    (tag.coerce tagClass).isOf tagClass.kind = true := by
  cases tag with
  | float x =>
    have hclass : tagClass = .int ∨ tagClass = .float := by
      rcases h with rfl | ⟨-, rfl⟩
      · rw [Tag.tagClass]
        split <;> simp
      · exact .inr rfl
    rcases hclass with rfl | rfl <;> rfl
  | int n => rcases h with rfl | ⟨-, rfl⟩ <;> rfl
  | bool flag => rcases h with rfl | ⟨hnum, -⟩ <;> first | rfl | cases hnum
  | string text => rcases h with rfl | ⟨hnum, -⟩ <;> first | rfl | cases hnum

end Tag

namespace Block

def bodies : Block → List Program
  | primitive .. => []
  | array _ inner _ => [inner]
  | discriminator _ options _ _ => options.map (·.2)

/-- A block in one of the forms that compiling gives it, whatever the blocks within it are. -/
inductive Formed : Block → Prop
  | primitive (hk : kind.check = .ok ()) : Formed (.primitive kind p)
  | flat (hk : kind.check = .ok ()) : Formed (.array (.scalar kind) [] p)
  | records {inner : Program} (h : ∀ kind, inner ≠ [.primitive kind []]) :
      Formed (.array .object inner p)
  | slot (hb : Below p wrapped) :
      Formed (.discriminator .uint [(.int 0, []), (.int 1, wrapped), (.int 2, [.primitive .null p])] "" p)
  | union {p : Path} (hf : field ≠ "") (hk : kind ∈ [Kind.int, .float, .boolean, .string])
      (ht : ∀ option ∈ options, option.1.isOf kind = true)
      (hb : ∀ option ∈ options, ∀ block ∈ option.2, p <+: block.path ∧ block.path ≠ p)
      (ha : ∀ option ∈ options, ∀ block ∈ option.2, block.path ≠ p.child field) :
      Formed (.discriminator kind options field p)

/-- The blocks of each program that a block holds stand apart. -/
def Scattered (block : Block) : Prop := ∀ body ∈ block.bodies, Spread body

end Block

theorem Laid.scattered (h : Laid rule block) (hf : block.Every Block.Formed) :
    block.Every Block.Scattered := by
  induction h with
  | primitive => exact .primitive fun _ hb => absurd hb List.not_mem_nil
  | flat =>
    -- being laid says nothing of what a flat array holds; being formed, that it is nothing
    cases hf with
    | array hform hi =>
      cases hform with
      | flat =>
        exact .array (List.forall_mem_singleton.mpr List.Pairwise.nil)
          fun _ hb => absurd hb List.not_mem_nil
  | records _ hs ih =>
    cases hf with
    | array _ hi => exact .array (List.forall_mem_singleton.mpr hs) fun b hb => ih b hb (hi b hb)
  | slot _ _ hs _ ih =>
    cases hf with
    | discriminator _ ho =>
      refine .discriminator ?_ fun option hoption b hb => ?_
      · simp only [Block.Scattered, Block.bodies, List.map_cons, List.map_nil, List.forall_mem_cons]
        exact ⟨List.Pairwise.nil, hs, List.pairwise_singleton .., fun _ hb => absurd hb List.not_mem_nil⟩
      · exact forall_options_ofSlot (motive := fun b => b.Every Block.Formed → b.Every Block.Scattered)
          (fun _ => .primitive fun _ hb => absurd hb List.not_mem_nil) ih option hoption b hb
          (ho option hoption b hb)
  | union _ _ _ _ _ hs ih =>
    cases hf with
    | discriminator _ ho =>
      refine .discriminator ?_ fun option hoption b hb => ih option hoption b hb (ho option hoption b hb)
      exact List.forall_mem_map.mpr hs

namespace MemberFrame

/-- What a member adds lies strictly below the union, in its fields. -/
theorem strictly_below_body {part : MemberFrame}
    (h : ∀ field ∈ part.fields, Compiled field.schema (path.child field.name) field.frame)
    (hb : block ∈ part.body discriminator path) : path <+: block.path ∧ block.path ≠ path := by
  obtain ⟨field, hf, hblock⟩ := Frame.mem_join.mp (List.mem_filter.mp hb).1
  have hbelow := (h field hf).below_blocks block hblock
  refine ⟨(Path.below_child path field.name).trans hbelow, fun hpath => ?_⟩
  rw [hpath] at hbelow
  exact Path.not_child_below path field.name hbelow

theorem isOf_coerced {parts : List MemberFrame}
    (hc : TagClass.unify? ((parts.flatMap (options discriminator path)).map (·.1.tagClass))
      = some tagClass)
    (ho : option ∈ (parts.flatMap (options discriminator path)).map
      fun member => (member.1.coerce tagClass, member.2)) : option.1.isOf tagClass.kind = true := by
  obtain ⟨member, hm, rfl⟩ := List.mem_map.mp ho
  exact Tag.isOf_coerce (TagClass.unify?_eq_some hc (List.mem_map.mpr ⟨member, hm, rfl⟩))

end MemberFrame

/-- The nodes of a schema compile to blocks in their forms, if its unions have names. -/
theorem passes_formed {schema : Schema} (hu : schema.UnionsNamed) :
    Compiled.Passes (fun node q => NodeAt schema [] q node) Block.Formed where
  primitive hk := .primitive hk
  array {path inner} hi := by
    unfold Block.ofElement
    split
    · have hscalar := (hi _ (List.mem_singleton_self _)).test
      cases hscalar with
      | primitive hk => exact .flat hk
    · rename_i hlone
      exact .records hlone
  slot _ _ h := .slot h.below_blocks
  union hn h := by
    have hnamed := hu _ _ _ hn
    obtain ⟨parts, tagClass, rfl, hparts, -, hclass, rfl⟩ := h.union_block
    refine .union hnamed tagClass.kind_mem (fun _ ho => MemberFrame.isOf_coerced hclass ho) ?_ ?_
    all_goals
      intro option ho block hblock
      obtain ⟨part, hp, tag, -, rfl⟩ := MemberFrame.mem_coerced ho
    · exact MemberFrame.strictly_below_body (hparts part hp) hblock
    · exact bne_iff_ne.mp (List.mem_filter.mp hblock).2

namespace Schema

/-- A schema whose unions have names compiles to blocks in their forms, at whatever depth. If the
fields of each object have distinct names, the blocks of each list stand at paths pairwise apart. -/
theorem compile_formed {schema : Schema} (hc : schema.compile = .ok program)
    (hu : schema.UnionsNamed) :
    (∀ block ∈ program, block.Every Block.Formed) ∧
      (schema.FieldsDistinct →
        Spread program ∧ ∀ block ∈ program, block.Every Block.Scattered) := by
  obtain ⟨frame, hf, rfl⟩ := compile_ok hc
  have hformed := hf.every (hereditary_nodeAt schema []) (passes_formed hu) .here
  refine ⟨hformed, fun hd => ?_⟩
  have hw := hf.wellLaid_plain (wellNamed_of_nodes hu hd hf .here)
  exact ⟨hw.spread, fun block hb => (hw.laid block hb).scattered (hformed block hb)⟩

/-- Records with an optional field, and behind them a union around a nullable field, which goes first. -/
theorem compile_formed_shape :
    (object [("items", array (object [("at", optional date)])), ("shape", union "k"
      [object [("k", literal (.text "a")), ("n", nullable string)]])]).UnionsNamed ∧
    (object [("items", array (object [("at", optional date)])), ("shape", union "k"
      [object [("k", literal (.text "a")), ("n", nullable string)]])]).FieldsDistinct ∧
    ∃ program, (object [("items", array (object [("at", optional date)])), ("shape", union "k"
      [object [("k", literal (.text "a")), ("n", nullable string)]])]).compile = .ok program ∧
    program.map (·.path) = [["shape"], ["items"]] ∧
    (∀ block ∈ program, block.Every Block.Formed) ∧
    Spread program ∧ ∀ block ∈ program, block.Every Block.Scattered := by
  have hn : (object [("items", array (object [("at", optional date)])), ("shape", union "k"
      [object [("k", literal (.text "a")), ("n", nullable string)]])]).wellNamed = true := by
    decide
  have hu := unionsNamed_of_wellNamed hn
  have hd := fieldsDistinct_of_wellNamed hn
  have hc : (object [("items", array (object [("at", optional date)])), ("shape", union "k"
      [object [("k", literal (.text "a")), ("n", nullable string)]])]).compile = .ok
      [.discriminator .string [(.string "a", [.ofSlot [.primitive .string ["shape", "n"]]
        ["shape", "n"]])] "k" ["shape"],
      .array .object [.ofSlot [.primitive .date ["at"]] ["at"]] ["items"]] := rfl
  obtain ⟨hformed, hscattered⟩ := compile_formed hc hu
  exact ⟨hu, hd, _, hc, rfl, hformed, hscattered hd⟩

end Schema

end Positional
