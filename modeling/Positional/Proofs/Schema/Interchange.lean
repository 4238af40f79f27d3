import Positional.Proofs.Program.Interchange

/-!
# The text of compiled programs

A schema whose numeric tags are finite compiles to a program that is read back from its text. So is
every program that was itself read from a text, which gives the round trip of the interchange form
(`Program.parse?_print`).
-/

namespace Positional

namespace Schema

def finiteNumber : Schema → Bool
  | literal (.number x) => x.isFinite
  | _ => true

def finiteLiteral (discriminator : String) : Schema → Bool
  | object fields =>
    match fields.lookup discriminator with
    | some field => field.finiteNumber
    | none => true
  | _ => true

mutual

/-- Whether every number that is the tag of a union member is finite. -/
def finiteTags : Schema → Bool
  | object fields => finiteTagsFields fields
  | union discriminator members => finiteTagsMembers discriminator members
  | array inner | optional inner | nullable inner | refined _ inner | transformed inner =>
    inner.finiteTags
  | _ => true

def finiteTagsFields : List (String × Schema) → Bool
  | [] => true
  | (_, schema) :: rest => schema.finiteTags && finiteTagsFields rest

def finiteTagsMembers (discriminator : String) : List Schema → Bool
  | [] => true
  | member :: rest =>
    member.finiteLiteral discriminator && member.finiteTags && finiteTagsMembers discriminator rest

end

theorem finiteTagsFields_iff :
    finiteTagsFields fields = true ↔ ∀ field ∈ fields, field.2.finiteTags = true := by
  induction fields with
  | nil => simp [finiteTagsFields]
  | cons field rest ih => simp [finiteTagsFields, ih]

theorem finiteTagsMembers_iff : finiteTagsMembers discriminator members = true ↔
    ∀ member ∈ members, member.finiteLiteral discriminator = true ∧ member.finiteTags = true := by
  induction members with
  | nil => simp [finiteTagsMembers]
  | cons member rest ih => simp [finiteTagsMembers, ih]

theorem hereditary_finiteTags : Hereditary fun schema _ => schema.finiteTags = true where
  field h := finiteTagsFields_iff.mp h
  member h := fun member hm => (finiteTagsMembers_iff.mp h member hm).2
  element h := h
  slot {_ schema inner} hi h := by
    cases schema with
    | optional => cases hi; exact h
    | nullable => cases hi; exact h
    | _ => cases hi
  refined _ h := h

theorem printable_memberTags (h : memberTags discriminator path member = .ok tags)
    (hf : member.finiteLiteral discriminator = true) : ∀ tag ∈ tags, tag.printable = true := by
  cases member with
  | object fields =>
    simp only [memberTags] at h
    simp only [finiteLiteral] at hf
    split at h
    · rename_i constant hl
      rw [hl] at hf
      cases constant <;> cases h <;> exact List.forall_mem_singleton.mpr hf
    · cases h
      simp [Tag.printable]
    · cases h
  | _ => cases h

end Schema

/-- Coercion leaves no tag that cannot be said: integers round to finite floats. -/
theorem Tag.printable_coerce {tag : Tag} (h : tag.printable = true) (tagClass : TagClass) :
    (tag.coerce tagClass).printable = true := by
  cases tagClass <;> cases tag <;> first | exact h | rfl | skip
  exact Binary64.isFinite_ofInt (Json.natAbs_lt_of_fits64 (Json.fits64_toInt _))

theorem Element.ofName_name (element : Element) (known : element.check = .ok ()) :
    Element.ofName element.name = element := by
  cases element with
  | object => rfl
  | scalar kind =>
    have hname : (kind.name == "object") = false := by
      cases kind with
      | unknown _ => cases known
      | _ => rfl
    simp only [Element.ofName, Element.name, hname]
    exact congrArg scalar (kind.ofName_name known)

namespace Block

def Known : Block → Prop
  | primitive kind _ => kind.check = .ok ()
  | array element _ _ => element.check = .ok ()
  | discriminator kind options _ _ =>
    kind.check = .ok () ∧ ∀ option ∈ options, option.1.printable = true

theorem Known.readable {block : Block} (h : block.Known) : block.Readable := by
  cases block with
  | primitive kind => exact kind.ofName_name h
  | array element => exact element.ofName_name h
  | discriminator kind => exact ⟨kind.ofName_name h.1, h.2⟩

end Block

theorem passes_known : Compiled.Passes (fun schema _ => schema.finiteTags = true) Block.Known where
  primitive h := h
  array {path inner} hi := by
    unfold Block.ofElement
    split
    · rename_i kind
      exact (hi _ (List.mem_singleton_self _)).test
    · rfl
  slot _ _ _ := ⟨rfl, by simp [Tag.printable]⟩
  union hf h := by
    obtain ⟨parts, tagClass, rfl, -, ht, -, rfl⟩ := h.union_block
    refine ⟨tagClass.check_kind, fun option ho => ?_⟩
    obtain ⟨part, hp, tag, htag, rfl⟩ := MemberFrame.mem_coerced ho
    have hfinite := (Schema.finiteTagsMembers_iff.mp hf _ (List.mem_map_of_mem hp)).1
    exact Tag.printable_coerce (Schema.printable_memberTags (ht part hp) hfinite tag htag) tagClass

namespace Schema

/-- A schema with finite tags compiles to a program that can be written and read again. -/
theorem readable_compile {schema : Schema} (hc : schema.compile = .ok program)
    (hf : schema.finiteTags = true) : ∀ block ∈ program, block.Every Block.Readable := by
  obtain ⟨frame, hframe, rfl⟩ := compile_ok hc
  exact fun block hb => (hframe.every hereditary_finiteTags passes_known hf block hb).mono
    fun _ => Block.Known.readable

end Schema

/-- Writing a program and reading it gives the program back, if it was read from a text or compiled
from a schema with finite tags, and its text opens no more containers at once than a text may. The
reader has to read back the program's own floats, which one that takes the nearest does. -/
theorem Program.parse?_print {program : Program}
    (h : (∃ text reader, parse? text reader = some program) ∨
      ∃ schema : Schema, schema.compile = .ok program ∧ schema.finiteTags = true)
    (hn : program.toJson.height ≤ Json.maxOpen) :
    (∀ reader : Json.FloatReader, (∀ x ∈ program.toJson.floats, reader.rereads x = true) →
      parse? program.print reader = some program ∧
        parse? (program.toJson.pretty ++ "\n") reader = some program) ∧
    ∀ x ∈ program.toJson.floats, Json.FloatReader.nearest.rereads x = true := by
  have hreadable : ∀ block ∈ program, block.Every Block.Readable := by
    rcases h with ⟨text, reader, ht⟩ | ⟨schema, hc, hf⟩
    · exact readable_of_parse? ht
    · exact Schema.readable_compile hc hf
  refine ⟨fun reader hr => ?_, Json.rereads_of_printable (printable_toJson hreadable)⟩
  rw [parse?_compact hreadable hr, parse?_pretty hreadable hr, if_pos hn]
  exact ⟨rfl, rfl⟩

/-- Records by position, the innermost with its form by place; tags that differ in their variant
alone, and kinds of unknown names, one of them like an element. -/
theorem Program.parse?_print_tags : ∃ (records : Json) (program : Program),
    parse? records.compact = some program ∧ program.toJson.height ≤ Json.maxOpen ∧
    program = [.discriminator (.unknown "tag") [(.int 1, []), (.float (.ofInt 1), []),
      (.bool true, []), (.string "1", [.array .object [.primitive (.unknown "object") []] ["a", ""]])]
      "k" []] ∧
    parse? program.print = some program ∧ parse? (program.toJson.pretty ++ "\n") = some program := by
  have hp : parse? (Json.array [.array [.string "discriminator", .string "tag", .array [
      .array [.integer 1, .array []], .array [.float (.ofInt 1), .array []],
      .array [.bool true, .array []], .array [.string "1", .array [.array [.integer 1,
        .string "object", .array [.array [.integer 0, .string "object", .array []]],
        .array [.string "a", .string ""]]]]],
      .string "k", .array []]]).compact = some [.discriminator (.unknown "tag") [(.int 1, []),
        (.float (.ofInt 1), []), (.bool true, []),
        (.string "1", [.array .object [.primitive (.unknown "object") []] ["a", ""]])] "k" []] := by
    rw [parse?, Json.parse?_compact (by decide +kernel) (by decide +kernel), if_pos (by decide +kernel)]
    rfl
  have hn : (toJson [.discriminator (.unknown "tag") [(.int 1, []), (.float (.ofInt 1), []),
      (.bool true, []), (.string "1", [.array .object [.primitive (.unknown "object") []] ["a", ""]])]
      "k" []]).height ≤ Json.maxOpen := by decide +kernel
  exact ⟨_, _, hp, hn, rfl, (parse?_print (.inl ⟨_, _, hp⟩) hn).1 .scaled (by decide +kernel)⟩

end Positional
