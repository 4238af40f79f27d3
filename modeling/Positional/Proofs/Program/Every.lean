import Positional.Proofs.Schema.Names

/-!
# Tests of every block

Some facts about a program hold block by block, at whatever depth. For the programs that schemas
compile to they are checked once for each form of block (`Compiled.every`).
-/

namespace Positional

inductive Block.Every (test : Block → Prop) : Block → Prop
  | primitive (h : test (.primitive kind p)) : Every test (.primitive kind p)
  | array {inner : Program} (h : test (.array element inner p))
      (hi : ∀ block ∈ inner, Every test block) : Every test (.array element inner p)
  | discriminator (h : test (.discriminator kind options field p))
      (ho : ∀ option ∈ options, ∀ block ∈ option.2, Every test block) :
      Every test (.discriminator kind options field p)

theorem Block.Every.test {test : Block → Prop} {block : Block} (h : block.Every test) : test block := by
  cases h <;> assumption

theorem Block.Every.mono {test weaker : Block → Prop} (hw : ∀ block, test block → weaker block)
    {block : Block} (h : block.Every test) : block.Every weaker := by
  induction h with
  | primitive h => exact .primitive (hw _ h)
  | array h _ ih => exact .array (hw _ h) ih
  | discriminator h _ ih => exact .discriminator (hw _ h) ih

/-- A property of schemas, each at the path at which it is compiled, that their parts share. -/
structure Schema.Hereditary (P : Schema → Path → Prop) : Prop where
  field : P (.object fields) path → ∀ field ∈ fields, P field.2 (path.child field.1)
  member : P (.union discriminator members) path → ∀ member ∈ members, P member path
  element {inner : Schema} : P (.array inner) path → P inner []
  slot {schema inner : Schema} : schema.slotOf? = some inner → P schema path → P inner path
  refined {inner : Schema} : Schema.isBytesCheck accepts = false → P (.refined accepts inner) path →
    P inner path

namespace Compiled

/-- A test that the blocks pass to which schemas with a property compile, each as it is made. -/
structure Passes (P : Schema → Path → Prop) (test : Block → Prop) : Prop where
  primitive : kind.check = .ok () → test (.primitive kind path)
  array {inner : Program} : (∀ block ∈ inner, block.Every test) → test (.ofElement inner path)
  slot {schema inner : Schema} : P schema path → schema.slotOf? = some inner →
    Compiled inner path frame → test (.ofSlot frame.blocks path)
  union {members : List Schema} : P (.union discriminator members) path →
    Compiled (.union discriminator members) path ⟨[block], []⟩ → test block

variable {P : Schema → Path → Prop} {test : Block → Prop}

theorem Passes.every_ofElement {inner : Program} (ht : Passes P test)
    (hi : ∀ block ∈ inner, block.Every test) : (Block.ofElement inner path).Every test := by
  have harray : test (.ofElement inner path) := ht.array hi
  unfold Block.ofElement at harray ⊢
  split at harray
  · exact .array harray fun _ hb => absurd hb List.not_mem_nil
  · exact .array harray hi

theorem every (h : Compiled schema path frame) (hP : Schema.Hereditary P) (ht : Passes P test)
    (hs : P schema path) : ∀ block ∈ frame.blocks, block.Every test := by
  induction h with
  | leaf hk =>
    rw [Frame.blocks_trail, List.forall_mem_singleton]
    exact .primitive (ht.primitive (Schema.leafKind_known hk))
  | object _ ih =>
    intro block hb
    obtain ⟨part, hp, hb⟩ := Frame.mem_join.mp hb
    exact ih part hp (hP.field hs _ (List.mem_map_of_mem (f := FieldFrame.field) hp)) block hb
  | union hc hm hb ih =>
    have hblock := ht.union hs (.union hc hm hb)
    obtain ⟨tagClass, -, rfl⟩ := ofMembers_ok hb
    rw [Frame.blocks_lead, List.forall_mem_singleton]
    refine .discriminator hblock fun option ho block hbody => ?_
    obtain ⟨part, hp, tag, -, rfl⟩ := MemberFrame.mem_coerced ho
    obtain ⟨field, hf, hbody⟩ := Frame.mem_join.mp (List.mem_filter.mp hbody).1
    have hmember := hP.member hs _ (List.mem_map_of_mem (f := MemberFrame.schema) hp)
    exact ih part hp field hf
      (hP.field hmember _ (List.mem_map_of_mem (f := FieldFrame.field) hf)) block hbody
  | array h ih =>
    rw [Frame.blocks_trail, List.forall_mem_singleton]
    exact ht.every_ofElement (ih (hP.element hs))
  | slot hi h ih =>
    rw [Frame.blocks_trail, List.forall_mem_singleton]
    exact .discriminator (ht.slot hs hi h)
      (forall_options_ofSlot (.primitive (ht.primitive rfl)) (ih (hP.slot hi hs)))
  | refined ha _ ih => exact ih (hP.refined ha hs)

end Compiled

end Positional
