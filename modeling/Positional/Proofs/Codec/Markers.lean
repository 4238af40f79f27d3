import Positional.Proofs.Codec.Canonical
import Positional.Proofs.Schema.Formed

/-!
# Slots and unions

Slots and unions compile to the same form of block, told apart by the name of the field alone: a slot
has the empty one. Nothing keeps a schema from giving a union that name too. Its block then passes
for that of a slot (`Schema.compile_told_iff`): what it writes is the presence of the place, in the kind of
its tags, and no longer the tag that the document holds.
-/

namespace Positional

namespace Block

def isPresence : Block → Bool
  | discriminator _ _ field _ => tellsPresence field
  | _ => false

/-- A discriminator of that kind, with these options, writes the tag that the document holds below
its path, and then the option with that tag. -/
def WritesTag (kind : Kind) (options : List (Tag × Program)) (field : String) (p : Path) : Prop :=
  ∀ x v, x.lookup (p.child field) = some v →
    (discriminator kind options field p).emit x
      = kind.emit (p.child field) v ++ emitOption options v x

theorem writesTag_of_ne (hk : kind.check = .ok ()) (hf : field ≠ "") :
    WritesTag kind options field p := by
  intro x v hx
  have htag : x.discriminatorTag p field = .ok (v, p.child field) := by
    simp [Value.discriminatorTag, Value.require, Value.tellsPresence_of_ne hf, hx, Except.map]
  rw [emit, hk, htag]

theorem emit_unnamed (hk : kind.check = .ok ()) (x : Value) :
    (discriminator kind options "" p).emit x =
      kind.emit p (.uint (presenceTag (x.lookup p))) ++
        emitOption options (.uint (presenceTag (x.lookup p))) x := by
  have htag : x.discriminatorTag p "" = .ok (.uint (presenceTag (x.lookup p)), p) := rfl
  rw [emit, hk, htag]

end Block

/-- Of each kind there is a tag that is not written as the presence of something is: its first byte
is another, or presence is not written at all. -/
theorem TagClass.exists_unlike_present (tagClass : TagClass) :
    ∃ v, ∀ p q first second,
      tagClass.kind.emit p (.uint 1) ++ first ≠ tagClass.kind.emit q v ++ second := by
  have hbytes : ∀ {kind : Kind} {v : Value} {bytes : Bytes}, kind.encode? v = some bytes →
      ∀ p e, (kind.emit p v ++ e).bytes = bytes ++ e.bytes := fun he p e => by
    rw [Kind.emit_eq_ofBytes.mpr he]
    rfl
  suffices h : ∃ v byte rest, tagClass.kind.encode? v = some (byte :: rest) ∧
      ∀ p e, (tagClass.kind.emit p (.uint 1) ++ e).bytes.head? ≠ some byte by
    obtain ⟨v, byte, rest, hv, hone⟩ := h
    refine ⟨v, fun p q first second heq => hone p first ?_⟩
    rw [heq, hbytes hv]
    rfl
  cases tagClass with
  | int =>
    refine ⟨.int 5, 10, [], by decide +kernel, fun p e => ?_⟩
    rw [kind, hbytes (by decide +kernel : Kind.int.encode? (.uint 1) = some [2])]
    exact fun h => absurd (Option.some.inj h) (by decide)
  | float =>
    refine ⟨.float ⟨1⟩, 1, [0, 0, 0, 0, 0, 0, 0], by decide +kernel, fun p e => ?_⟩
    rw [kind, hbytes (by decide +kernel : Kind.float.encode? (.uint 1) = some [0, 0, 0, 0, 0, 0, 240, 63])]
    exact fun h => absurd (Option.some.inj h) (by decide)
  | boolean => exact ⟨.bool true, 1, [], by decide +kernel, fun _ _ => (Option.some_ne_none _).symm⟩
  | string => exact ⟨.text "", 0, [], by decide +kernel, fun _ _ => (Option.some_ne_none _).symm⟩

/-- A union writes the tag of its documents just if its discriminator has a name. -/
theorem Block.writesTag_iff (tagClass : TagClass) (options : List (Tag × Program)) (field : String)
    (p : Path) : WritesTag tagClass.kind options field p ↔ field ≠ "" := by
  refine ⟨?_, writesTag_of_ne tagClass.check_kind⟩
  rintro h rfl
  obtain ⟨v, hv⟩ := tagClass.exists_unlike_present
  -- a document with nothing but the tag
  have hx := Value.lookup_assignAll_of_mem (.object []) (List.pairwise_singleton ..)
    (List.mem_singleton_self (p.child "", v))
  obtain ⟨fields, hp⟩ := Value.object_of_lookup_below hx (Path.below_child p "") (Path.child_ne_self p "")
  have hwritten := h _ v hx
  rw [emit_unnamed tagClass.check_kind, hp] at hwritten
  exact hv _ _ _ _ hwritten

namespace Schema

/-- A node of that sort, at its path, compiles to the block. -/
def Makes (schema : Schema) (sort : Schema → Prop) (block : Block) : Prop :=
  ∃ node q, NodeAt schema [] q node ∧ sort node ∧ node.compileInto q [] = .ok [block]

def IsSlot (node : Schema) : Prop := node.slotOf? ≠ none

def IsUnion (discriminator : String) (node : Schema) : Prop :=
  ∃ members, node = .union discriminator members

theorem Makes.slot_inv {schema : Schema} (h : schema.Makes IsSlot block) :
    ∃ wrapped q, block = .ofSlot wrapped q := by
  obtain ⟨node, q, -, hslot, hc⟩ := h
  obtain ⟨inner, hi⟩ := Option.ne_none_iff_exists'.mp hslot
  obtain ⟨frame, hf, hframe⟩ := compileInto_ok node hc
  obtain ⟨wrapped, -, rfl⟩ := hf.slot_inv hi
  exact ⟨_, q, List.singleton_inj.mp hframe⟩

theorem Makes.union_inv {schema : Schema} (h : schema.Makes (IsUnion discriminator) block) :
    ∃ (tagClass : TagClass) (options : List (Tag × Program)) (q : Path),
      block = .discriminator tagClass.kind options discriminator q := by
  obtain ⟨node, q, -, ⟨members, rfl⟩, hc⟩ := h
  obtain ⟨frame, hf, hframe⟩ := compileInto_ok _ hc
  obtain ⟨parts, made, -, rfl, -, -, hb⟩ := hf.union_inv
  obtain ⟨tagClass, -, rfl⟩ := Compiled.ofMembers_ok hb
  exact ⟨tagClass, _, q, List.singleton_inj.mp hframe⟩

/-- No block is made for a slot and for a union: they have no kind in common. -/
theorem Makes.not_union {schema : Schema} (h : schema.Makes IsSlot block) :
    ¬ schema.Makes (IsUnion discriminator) block := by
  intro hunion
  obtain ⟨wrapped, q, rfl⟩ := h.slot_inv
  obtain ⟨tagClass, options, _, hblock⟩ := hunion.union_inv
  have hkind : Kind.uint = tagClass.kind := (Block.discriminator.inj hblock).1
  cases tagClass <;> cases hkind

theorem UnionsNamed.not_makes {schema : Schema} (h : schema.UnionsNamed) :
    ¬ schema.Makes (IsUnion "") block := by
  rintro ⟨_, q, hn, ⟨members, rfl⟩, -⟩
  exact h q "" members hn rfl

/-- The block tells presence just if it was made for an optional or nullable node. -/
def Told (schema : Schema) (block : Block) : Prop :=
  block.isPresence = true ↔ schema.Makes IsSlot block

theorem told_of_neither {schema : Schema} (hp : block.isPresence = false)
    (hs : ∀ wrapped q, block ≠ .ofSlot wrapped q)
    (hu : ∀ (tagClass : TagClass) options q, block ≠ .discriminator tagClass.kind options "" q) :
    schema.Told block ↔ ¬ schema.Makes (IsUnion "") block := by
  have hslot : ¬ schema.Makes IsSlot block := by
    intro h
    obtain ⟨wrapped, q, hblock⟩ := h.slot_inv
    exact hs wrapped q hblock
  have hunion : ¬ schema.Makes (IsUnion "") block := by
    intro h
    obtain ⟨tagClass, options, q, hblock⟩ := h.union_inv
    exact hu tagClass options q hblock
  simp [Told, hp, hslot, hunion]

theorem passes_told (schema : Schema) :
    Compiled.Passes (fun node q => NodeAt schema [] q node)
      fun block => schema.Told block ↔ ¬ schema.Makes (IsUnion "") block where
  primitive _ := told_of_neither rfl nofun nofun
  array _ := by
    unfold Block.ofElement
    split <;> exact told_of_neither rfl nofun nofun
  slot hn hi h := by
    have hmade : schema.Makes IsSlot _ :=
      ⟨_, _, hn, by simp [IsSlot, hi], compileInto_of_compiled (.slot hi h) []⟩
    exact iff_of_true (iff_of_true rfl hmade) hmade.not_union
  union := by
    intro discriminator path block members hn h
    have hmade : schema.Makes (IsUnion discriminator) block :=
      ⟨_, path, hn, ⟨_, rfl⟩, compileInto_of_compiled h []⟩
    obtain ⟨tagClass, options, _, rfl⟩ := hmade.union_inv
    by_cases hd : discriminator = ""
    · subst hd
      exact iff_of_false (fun htold => (htold.mp rfl).not_union hmade) (fun hnot => hnot hmade)
    · exact told_of_neither (Value.tellsPresence_of_ne hd)
        (fun _ _ hblock => hd (Block.discriminator.inj hblock).2.2.1)
        (fun _ _ _ hblock => hd (Block.discriminator.inj hblock).2.2.1)

/-- An option of a union: a tag of a member, and what the member compiles to, less the leaf of that
tag. -/
def IsMemberOption (discriminator : String) (p : Path) (members : List Schema) (tagClass : TagClass)
    (option : Tag × Program) : Prop :=
  ∃ member ∈ members, ∃ tags tag body, memberTags discriminator p member = .ok tags ∧ tag ∈ tags ∧
    member.compileInto p [] = .ok body ∧
    option = (tag.coerce tagClass, body.filter (·.path != p.child discriminator))

/-- A block tells presence just if it was made for an optional or nullable node, unless it was made
for a union whose discriminator has no name. A union writes the tag of its documents, and then what
the member with that tag compiles to, just if its discriminator has a name. -/
theorem compile_told_iff {schema : Schema} (hc : schema.compile = .ok program) :
    (∀ block ∈ program, block.Every fun block =>
      schema.Told block ↔ ¬ schema.Makes (IsUnion "") block) ∧
    ∀ p discriminator members, NodeAt schema [] p (.union discriminator members) →
      ∃ (tagClass : TagClass) (options : List (Tag × Program)),
        (union discriminator members).compileInto p [] =
          .ok [.discriminator tagClass.kind options discriminator p] ∧
        (∀ option ∈ options, IsMemberOption discriminator p members tagClass option) ∧
        (Block.WritesTag tagClass.kind options discriminator p ↔ discriminator ≠ "") := by
  obtain ⟨frame, hf, rfl⟩ := compile_ok hc
  refine ⟨hf.every (hereditary_nodeAt schema []) (passes_told schema) .here, ?_⟩
  intro p discriminator members hn
  obtain ⟨_, hunion⟩ := hereditary_compiled.nodes hn ⟨frame, hf⟩
  have hcompiled := compileInto_of_compiled hunion []
  obtain ⟨parts, _, rfl, rfl, hparts, ht, hb⟩ := hunion.union_inv
  obtain ⟨tagClass, -, rfl⟩ := Compiled.ofMembers_ok hb
  refine ⟨tagClass, _, hcompiled, fun option ho => ?_, Block.writesTag_iff ..⟩
  obtain ⟨part, hp, tag, htag, rfl⟩ := MemberFrame.mem_coerced ho
  have hmember := compileInto_of_compiled (.object (hparts part hp)) []
  rw [List.append_nil] at hmember
  exact ⟨part.schema, List.mem_map_of_mem hp, part.tags, tag, _, ht part hp, htag, hmember, rfl⟩

/-- A union with a named discriminator in a slot: only the outer block tells presence. -/
theorem compile_told_iff_slot : ∃ (program : Program) (tagClass : TagClass)
    (options : List (Tag × Program)),
    (optional (union "k" [object [("k", literal (.text "a")), ("n", string)]])).compile = .ok program ∧
    (∀ block ∈ program, block.Every
      (optional (union "k" [object [("k", literal (.text "a")), ("n", string)]])).Told) ∧
    (union "k" [object [("k", literal (.text "a")), ("n", string)]]).compileInto [] []
      = .ok [.discriminator tagClass.kind options "k" []] ∧
    (∀ option ∈ options, IsMemberOption "k" []
      [object [("k", literal (.text "a")), ("n", string)]] tagClass option) ∧
    Block.WritesTag tagClass.kind options "k" [] := by
  have hc : (optional (union "k" [object [("k", literal (.text "a")), ("n", string)]])).compile
      = .ok [.ofSlot [.discriminator .string [(.string "a", [.primitive .string ["n"]])] "k" []] []] :=
    rfl
  have hu : (optional (union "k" [object [("k", literal (.text "a")), ("n", string)]])).UnionsNamed :=
    unionsNamed_of_wellNamed (by decide)
  obtain ⟨htold, hunions⟩ := compile_told_iff hc
  obtain ⟨tagClass, options, hunion, hoptions, hwrites⟩ := hunions [] "k" _ (.slot rfl .here)
  exact ⟨_, tagClass, options, hc, fun block hb => (htold block hb).mono fun _ h => h.mpr hu.not_makes,
    hunion, hoptions, hwrites.mpr (by decide)⟩

/-- A union without a name and without a slot around it or in it: its block tells presence, and of a
document with the tag 5 only the presence tag 1 is written. -/
theorem told_lost : ∃ program : Program,
    (union "" [object [("", literal (.number (.ofInt 5))), ("x", string)]]).compile = .ok program ∧
    (∀ block ∈ program, block.isPresence = true ∧
      ¬ (union "" [object [("", literal (.number (.ofInt 5))), ("x", string)]]).Makes IsSlot block) ∧
    Value.lookup (.object [("", .int 5), ("x", .text "b")]) (Path.child [] "") = some (.int 5) ∧
    Kind.int.encode? (.int 5) = some [10] ∧
    program.encode (.object [("", .int 5), ("x", .text "b")]) = .ok [2] := by
  have hm : compileMembers "" [] [object [("", literal (.number (.ofInt 5))), ("x", string)]]
      = .ok [(.float (.ofInt 5), [.primitive .string ["x"]])] := rfl
  have hu : TagClass.unify? [(Tag.float (.ofInt 5)).tagClass] = some .int := by decide +kernel
  have hmade : (union "" [object [("", literal (.number (.ofInt 5))), ("x", string)]]).Makes
      (IsUnion "") _ := ⟨_, [], .here, ⟨_, rfl⟩, compileInto_union hm hu []⟩
  refine ⟨_, compileInto_union hm hu [], List.forall_mem_singleton.mpr ⟨rfl, ?_⟩, rfl, ?_, ?_⟩
  · exact fun h => h.not_union hmade
  · decide +kernel
  · exact Program.encode_ok.mpr (by decide +kernel)

end Schema

end Positional
