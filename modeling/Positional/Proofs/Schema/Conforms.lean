import Positional.Proofs.Document.Content
import Positional.Proofs.Schema.Traces
import Positional.Proofs.Wire.Carried

/-!
# Documents that conform to a schema

A document conforms when it holds what the schema names and nothing else, in forms that the wire
carries whole. Presence rests on what is found below a slot, so an object anywhere but at the root of
a document or of an array's element must have content.
-/

namespace Positional

namespace Schema

def omittable : Schema → Bool
  | optional _ | nullable _ => true
  | refined accepts inner => !isBytesCheck accepts && inner.omittable
  | _ => false

theorem not_omittable_leaf {schema : Schema} (h : schema.leafKind? = some kind) :
    schema.omittable = false := by
  cases schema with
  | refined accepts inner =>
    rw [omittable, (refined_leaf h).1]
    rfl
  | _ => first | rfl | cases h

def taggedMembers (discriminator : String) (members : List Schema) : List (Tag × Schema) :=
  members.flatMap fun member =>
    match memberTags discriminator [] member with
    | .ok tags => tags.map (·, member)
    | .error _ => []

def unionClass? (discriminator : String) (members : List Schema) : Option TagClass :=
  TagClass.unify? ((taggedMembers discriminator members).map (·.1.tagClass))

/-- The member that a tag in a document selects: the first with a matching tag. -/
def memberFor? (tagClass : TagClass) (discriminator : String) (members : List Schema) (tag : Value) :
    Option Schema :=
  ((taggedMembers discriminator members).find? fun option =>
    (option.1.coerce tagClass).matchesValue tag).map (·.2)

/-- The document holds what the schema says, and that only. `root` tells the root of a document or of
an element, where an object need not have content. The tag of a union is of the kind that its tags go
over the wire under, and the other fields are those of the member that it selects. -/
inductive Conforms : Schema → (root : Bool) → Value → Prop
  | leaf (hk : schema.leafKind? = some kind) (hb : kind.bears value = true) :
      Conforms schema root value
  | array (h : ∀ item ∈ items, Conforms element true item) :
      Conforms (.array element) root (.array items)
  | null {inner : Schema} (hi : schema.slotOf? = some inner) : Conforms schema root .null
  | slot {inner : Schema} (hi : schema.slotOf? = some inner) (h : Conforms inner root value) :
      Conforms schema root value
  | refined {inner : Schema} (hb : isBytesCheck accepts = false) (h : Conforms inner root value) :
      Conforms (.refined accepts inner) root value
  | object (hn : (values.map (·.1)).Nodup)
      (hd : ∀ name, values.lookup name ≠ none → name ∈ fields.map (·.1))
      (ha : ∀ field ∈ fields, values.lookup field.1 = none → field.2.omittable = true)
      (h : ∀ field ∈ fields, ∀ value, values.lookup field.1 = some value →
        Conforms field.2 false value)
      (hc : root = true ∨ (Value.object values).hasContent = true) :
      Conforms (.object fields) root (.object values)
  | union (hn : (values.map (·.1)).Nodup)
      (hu : unionClass? discriminator members = some tagClass)
      (ht : values.lookup discriminator = some tag) (hb : tagClass.kind.bears tag = true)
      (hm : memberFor? tagClass discriminator members tag = some (.object fields))
      (hd : ∀ name, values.lookup name ≠ none → name ∈ fields.map (·.1))
      (ha : ∀ field ∈ fields, values.lookup field.1 = none → field.2.omittable = true)
      (h : ∀ field ∈ fields, field.1 ≠ discriminator → ∀ value,
        values.lookup field.1 = some value → Conforms field.2 false value) :
      Conforms (.union discriminator members) root (.object values)

namespace Conforms

theorem leaf_inv (hk : schema.leafKind? = some kind) (h : Conforms schema root v) :
    kind.bears v = true := by
  cases h with
  | leaf hk' hb =>
    cases hk.symm.trans hk'
    exact hb
  | null hi => cases schema <;> cases hi <;> cases hk
  | slot hi => cases schema <;> cases hi <;> cases hk
  | refined hb => simp [leafKind?, hb] at hk
  | _ => cases hk

theorem slot_inv {inner : Schema} (hi : schema.slotOf? = some inner) (h : Conforms schema root v)
    (hv : v ≠ .null) :
    Conforms inner root v := by
  cases h with
  | leaf hk => cases schema <;> cases hi <;> cases hk
  | null => exact absurd rfl hv
  | slot hi' h =>
    cases hi.symm.trans hi'
    exact h
  | _ => cases hi

theorem refined_inv {inner : Schema} (hb : isBytesCheck accepts = false)
    (h : Conforms (.refined accepts inner) root v) :
    Conforms inner root v := by
  cases h with
  | leaf hk => simp [leafKind?, hb] at hk
  | null hi => cases hi
  | slot hi => cases hi
  | refined _ h => exact h

theorem array_inv (h : Conforms (.array element) root v) :
    ∃ items, v = .array items ∧ ∀ item ∈ items, Conforms element true item := by
  cases h with
  | leaf hk => cases hk
  | array h => exact ⟨_, rfl, h⟩
  | null hi => cases hi
  | slot hi => cases hi

theorem object_inv (h : Conforms (.object fields) root v) : ∃ values, v = .object values ∧
    (values.map (·.1)).Nodup ∧ (∀ name, values.lookup name ≠ none → name ∈ fields.map (·.1)) ∧
    (∀ field ∈ fields, values.lookup field.1 = none → field.2.omittable = true) ∧
    ∀ field ∈ fields, ∀ value, values.lookup field.1 = some value →
      Conforms field.2 false value := by
  cases h with
  | leaf hk => cases hk
  | object hn hd ha h hc => exact ⟨_, rfl, hn, hd, ha, h⟩
  | null hi => cases hi
  | slot hi => cases hi

theorem union_inv (h : Conforms (.union discriminator members) root v) :
    ∃ values tagClass tag fields, v = .object values ∧ (values.map (·.1)).Nodup ∧
      unionClass? discriminator members = some tagClass ∧
      values.lookup discriminator = some tag ∧ tagClass.kind.bears tag = true ∧
      memberFor? tagClass discriminator members tag = some (.object fields) ∧
      (∀ name, values.lookup name ≠ none → name ∈ fields.map (·.1)) ∧
      (∀ field ∈ fields, values.lookup field.1 = none → field.2.omittable = true) ∧
      ∀ field ∈ fields, field.1 ≠ discriminator → ∀ value,
        values.lookup field.1 = some value → Conforms field.2 false value := by
  cases h with
  | leaf hk => cases hk
  | null hi => cases hi
  | slot hi => cases hi
  | union hn hu ht hb hm hd ha h => exact ⟨_, _, _, _, rfl, hn, hu, ht, hb, hm, hd, ha, h⟩

/-- Away from the root everything that conforms leaves a trace. -/
theorem traces (h : Conforms schema false v) : schema.traces (some v) = true := by
  generalize hroot : false = root at h
  induction h with
  | leaf hk => exact traces_leaf hk
  | array => rfl
  | null hi => exact traces_slot_null hi
  | slot hi _ ih => exact traces_slot_of hi (ih hroot)
  | refined hb _ ih =>
    rw [Schema.traces, ih hroot, Bool.or_true]
  | object hn hd ha h hc ih =>
    rename_i values fields root
    subst hroot
    obtain ⟨⟨name, value⟩, hf, -⟩ := Value.hasContent_object.mp (hc.resolve_left (by simp))
    have hl := lookup_of_mem hn hf
    obtain ⟨field, hmem, hname⟩ := List.mem_map.mp (hd name (by simp [hl]))
    refine traces_object.mpr ⟨field, hmem, ?_⟩
    rw [Option.bind_some, Value.fields_object, hname, hl]
    exact ih field hmem value (hname ▸ hl) rfl
  | union => rfl

end Conforms

-- ---------------------------------------------------------------------------
-- The member that a tag selects
-- ---------------------------------------------------------------------------

theorem memberTags_path (h : memberTags discriminator path member = .ok tags) (path' : Path) :
    memberTags discriminator path' member = .ok tags := by
  cases member with
  | object fields =>
    simp only [memberTags] at h ⊢
    split at h
    · rename_i constant hl
      cases constant <;> cases h <;> rfl
    · exact h
    · cases h
  | _ => cases h

end Schema

namespace MemberFrame

def tagged (parts : List MemberFrame) : List (Tag × MemberFrame) :=
  parts.flatMap fun part => part.tags.map (·, part)

theorem flatMap_options (parts : List MemberFrame) (discriminator : String) (path : Path) :
    parts.flatMap (options discriminator path)
      = (tagged parts).map fun entry => (entry.1, entry.2.body discriminator path) := by
  rw [tagged, List.map_flatMap]
  congr 1
  funext part
  rw [options, List.map_map]
  rfl

variable {parts : List MemberFrame}
  (ht : ∀ part ∈ parts, Schema.memberTags discriminator path part.schema = .ok part.tags)

include ht

theorem taggedMembers_eq : Schema.taggedMembers discriminator (parts.map (·.schema))
    = (tagged parts).map fun entry => (entry.1, entry.2.schema) := by
  rw [tagged, List.map_flatMap, Schema.taggedMembers, List.flatMap_map]
  refine List.flatMap_congr fun part hp => ?_
  rw [Schema.memberTags_path (ht part hp) [], List.map_map]
  rfl

theorem unionClass?_eq : Schema.unionClass? discriminator (parts.map (·.schema))
    = TagClass.unify? ((parts.flatMap (options discriminator path)).map (·.1.tagClass)) := by
  rw [Schema.unionClass?, taggedMembers_eq ht, flatMap_options, List.map_map, List.map_map]
  rfl

def chosen? (parts : List MemberFrame) (tagClass : TagClass) (tag : Value) :
    Option (Tag × MemberFrame) :=
  (tagged parts).find? fun entry => (entry.1.coerce tagClass).matchesValue tag

theorem memberFor?_eq : Schema.memberFor? tagClass discriminator (parts.map (·.schema)) tag
    = (chosen? parts tagClass tag).map (·.2.schema) := by
  rw [Schema.memberFor?, taggedMembers_eq ht, List.find?_map, Option.map_map]
  rfl

omit ht in
theorem select_eq (parts : List MemberFrame) : Block.select
    ((parts.flatMap (options discriminator path)).map fun option =>
      (option.1.coerce tagClass, option.2)) tag
    = (chosen? parts tagClass tag).map (·.2.body discriminator path) := by
  rw [Block.select, flatMap_options, List.map_map, List.find?_map, Option.map_map]
  rfl

def chosenBody (parts : List MemberFrame) (tagClass : TagClass) (tag : Value) (discriminator : String)
    (path : Path) : Program :=
  ((chosen? parts tagClass tag).map (·.2.body discriminator path)).getD []

omit ht in
theorem body_eq (parts : List MemberFrame) : Block.body
    ((parts.flatMap (options discriminator path)).map fun option =>
      (option.1.coerce tagClass, option.2)) tag
    = chosenBody parts tagClass tag discriminator path := by
  rw [Block.body, select_eq, chosenBody]

omit ht in
theorem mem_of_chosen? (h : chosen? parts tagClass tag = some (own, part)) :
    part ∈ parts ∧ own ∈ part.tags := by
  obtain ⟨other, hp, hmem⟩ := List.mem_flatMap.mp (List.mem_of_find?_eq_some h)
  obtain ⟨_, htag, heq⟩ := List.mem_map.mp hmem
  cases heq
  exact ⟨hp, htag⟩

/-- The member that conforming is about is the one whose blocks run. -/
theorem select_of_memberFor?
    (hm : Schema.memberFor? tagClass discriminator (parts.map (·.schema)) tag = some member) :
    ∃ part ∈ parts, part.schema = member ∧ Block.select
      ((parts.flatMap (options discriminator path)).map fun option =>
        (option.1.coerce tagClass, option.2)) tag = some (part.body discriminator path) := by
  rw [memberFor?_eq ht, Option.map_eq_some_iff] at hm
  obtain ⟨⟨own, part⟩, hfind, rfl⟩ := hm
  exact ⟨part, (mem_of_chosen? hfind).1, rfl, by rw [select_eq, hfind, Option.map_some]⟩

end MemberFrame

theorem Schema.Conforms.union_selects {parts : List MemberFrame} {x : Value}
    (ht : ∀ part ∈ parts, Schema.memberTags discriminator path part.schema = .ok part.tags)
    (hb : Block.ofMembers discriminator path
      (parts.flatMap (MemberFrame.options discriminator path)) = .ok block)
    (hd : discriminator ≠ "") (hv : Conforms (.union discriminator (parts.map (·.schema))) root v)
    (hx : x.lookup path = some v) :
    ∃ values kind options, ∃ part ∈ parts, v = .object values ∧
      block = .discriminator kind options discriminator path ∧
      values.lookup discriminator = some (x.tagAt path discriminator) ∧
      kind.bears (x.tagAt path discriminator) = true ∧
      Block.select options (x.tagAt path discriminator) = some (part.body discriminator path) ∧
      (values.map (·.1)).Nodup ∧
      (∀ name, values.lookup name ≠ none → name ∈ part.fields.map (·.name)) ∧
      (∀ field ∈ part.fields, values.lookup field.name = none → field.schema.omittable = true) ∧
      ∀ field ∈ part.fields, field.name ≠ discriminator → ∀ value,
        values.lookup field.name = some value → Conforms field.schema false value := by
  obtain ⟨values, tagClass, tag, fields, rfl, hnodup, hu, htag, hbears, hm, hdeclared, ha, hfields⟩ :=
    hv.union_inv
  obtain ⟨_, hclass, rfl⟩ := Compiled.ofMembers_ok hb
  rw [MemberFrame.unionClass?_eq ht, hclass] at hu
  cases hu
  obtain ⟨part, hp, hschema, hselect⟩ := MemberFrame.select_of_memberFor? ht hm
  cases hschema
  rw [List.map_map] at hdeclared
  have htagAt : x.tagAt path discriminator = tag := by
    rw [Value.tagAt_field x path hd, Value.held_of_lookup (by rw [Value.lookup_child, hx]; exact htag)]
  have hfield := fun field (hf : field ∈ part.fields) => List.mem_map_of_mem (f := FieldFrame.field) hf
  subst htagAt
  exact ⟨values, _, _, part, hp, rfl, rfl, htag, hbears, hselect, hnodup, hdeclared,
    fun field hf => ha _ (hfield field hf), fun field hf => hfields _ (hfield field hf)⟩

end Positional
