import Positional.Proofs.Program.Frames
import Positional.Proofs.Schema.Compiled

/-!
# Well-named schemas

A schema is well named when the fields of each object have distinct names and each union tells its
members apart by a field with a name. Then the paths of its leaves are pairwise apart, so it compiles
to a well-laid program: compiling never makes two blocks that share a place in the document.
-/

namespace Positional

namespace Schema

mutual

/-- Field names are distinct within each object, and no union's discriminator is the empty name. A
byte buffer is a leaf, whatever schema it refines. -/
def wellNamed : Schema → Bool
  | object fields => decide (fields.map (·.1)).Nodup && wellNamedFields fields
  | union discriminator members => discriminator != "" && wellNamedMembers members
  | array element => element.wellNamed
  | optional inner | nullable inner => inner.wellNamed
  | refined accepts inner => isBytesCheck accepts || inner.wellNamed
  | _ => true

def wellNamedFields : List (String × Schema) → Bool
  | [] => true
  | (_, schema) :: rest => schema.wellNamed && wellNamedFields rest

def wellNamedMembers : List Schema → Bool
  | [] => true
  | member :: rest => member.wellNamed && wellNamedMembers rest

end

mutual

/-- A test holds of each optional or nullable place, at its path within its frame and with the schema
that it wraps. -/
def eachSlot (test : Path → Schema → Bool) : Schema → Path → Bool
  | object fields, path => eachSlotFields test fields path
  | union _ members, path => eachSlotMembers test members path
  | array element, _ => element.eachSlot test []
  | optional inner, path | nullable inner, path => test path inner && inner.eachSlot test path
  | refined accepts inner, path => isBytesCheck accepts || inner.eachSlot test path
  | _, _ => true

def eachSlotFields (test : Path → Schema → Bool) : List (String × Schema) → Path → Bool
  | [], _ => true
  | (name, schema) :: rest, path =>
    schema.eachSlot test (path.child name) && eachSlotFields test rest path

def eachSlotMembers (test : Path → Schema → Bool) : List Schema → Path → Bool
  | [], _ => true
  | member :: rest, path => member.eachSlot test path && eachSlotMembers test rest path

end

theorem wellNamed_object : (object fields).wellNamed = true ↔
    (fields.map (·.1)).Nodup ∧ ∀ field ∈ fields, field.2.wellNamed = true := by
  have hfields : wellNamedFields fields = true ↔ ∀ field ∈ fields, field.2.wellNamed = true := by
    induction fields with
    | nil => simp [wellNamedFields]
    | cons field rest ih => simp [wellNamedFields, ih]
  simp [wellNamed, hfields]

theorem wellNamed_union : (union discriminator members).wellNamed = true ↔
    discriminator ≠ "" ∧ ∀ member ∈ members, member.wellNamed = true := by
  have hmembers : wellNamedMembers members = true ↔ ∀ member ∈ members, member.wellNamed = true := by
    induction members with
    | nil => simp [wellNamedMembers]
    | cons member rest ih => simp [wellNamedMembers, ih]
  simp [wellNamed, hmembers]

theorem wellNamed_fields {parts : List FieldFrame} :
    (object (parts.map FieldFrame.field)).wellNamed = true ↔
      (parts.map (·.name)).Nodup ∧ ∀ part ∈ parts, part.schema.wellNamed = true := by
  rw [wellNamed_object, List.map_map, List.forall_mem_map]
  rfl

theorem wellNamed_members {parts : List MemberFrame} :
    (union discriminator (parts.map (·.schema))).wellNamed = true ↔
      discriminator ≠ "" ∧ ∀ part ∈ parts, part.schema.wellNamed = true := by
  rw [wellNamed_union, List.forall_mem_map]

theorem wellNamed_leaf {schema : Schema} (hk : schema.leafKind? = some kind) :
    schema.wellNamed = true := by
  cases schema with
  | refined accepts inner => rw [wellNamed, (refined_leaf hk).1, Bool.true_or]
  | _ => first | rfl | cases hk

theorem wellNamed_slot {schema inner : Schema} (h : schema.slotOf? = some inner) :
    schema.wellNamed = inner.wellNamed := by
  cases schema <;> cases h <;> rw [wellNamed]

theorem wellNamed_refined {inner : Schema} (ha : isBytesCheck accepts = false) :
    (refined accepts inner).wellNamed = inner.wellNamed := by
  rw [wellNamed, ha, Bool.false_or]

theorem eachSlot_object : (object fields).eachSlot test path = true ↔
    ∀ field ∈ fields, field.2.eachSlot test (path.child field.1) = true := by
  rw [eachSlot]
  induction fields with
  | nil => simp [eachSlotFields]
  | cons field rest ih => simp [eachSlotFields, ih]

theorem eachSlot_union : (union discriminator members).eachSlot test path = true ↔
    ∀ member ∈ members, member.eachSlot test path = true := by
  rw [eachSlot]
  induction members with
  | nil => simp [eachSlotMembers]
  | cons member rest ih => simp [eachSlotMembers, ih]

theorem eachSlot_leaf {schema : Schema} (hk : schema.leafKind? = some kind) :
    schema.eachSlot test path = true := by
  cases schema with
  | refined accepts inner => rw [eachSlot, (refined_leaf hk).1, Bool.true_or]
  | _ => first | rfl | cases hk

theorem eachSlot_slot {schema inner : Schema} (h : schema.slotOf? = some inner) :
    schema.eachSlot test path = true ↔ test path inner = true ∧ inner.eachSlot test path = true := by
  cases schema <;> cases h <;> simp [eachSlot]

end Schema

-- ---------------------------------------------------------------------------
-- Frames
-- ---------------------------------------------------------------------------

theorem Spread.filter (h : Spread blocks) (test : Block → Bool) : Spread (blocks.filter test) :=
  List.Pairwise.sublist List.filter_sublist h

theorem wellLaid_singleton (h : Laid rule block) (hp : block.path = path) :
    WellLaid rule path [block] := by
  exact ⟨by simpa using h, below_singleton hp, List.pairwise_singleton ..⟩

theorem WellLaid.laid_ofElement (h : WellLaid rule [] blocks) :
    Laid rule (.ofElement blocks path) := by
  unfold Block.ofElement
  split
  · exact .flat
  · exact .records h.laid h.spread

theorem wellLaid_join {parts : List FieldFrame} (hn : (parts.map (·.name)).Nodup)
    (h : ∀ part ∈ parts, WellLaid rule (path.child part.name) part.frame.blocks) :
    WellLaid rule path (Frame.join (parts.map (·.frame))).blocks := by
  refine ⟨?_, ?_, ?_⟩
  · intro block hb
    obtain ⟨part, hp, hb⟩ := Frame.mem_join.mp hb
    exact (h part hp).laid block hb
  · intro block hb
    obtain ⟨part, hp, hb⟩ := Frame.mem_join.mp hb
    exact (Path.below_child path part.name).trans ((h part hp).below block hb)
  · refine ((Frame.perm_join _).pairwise_iff Path.Apart.symm).mpr ?_
    rw [List.flatMap_map, List.pairwise_flatMap]
    refine ⟨fun part hp => (h part hp).spread, ?_⟩
    refine (List.pairwise_map.mp hn).imp_of_mem fun ha hb hne x hx y hy => ?_
    have hchild := Path.apart_child path hne
    exact ((hchild.below ((h _ ha).below x hx)).symm.below ((h _ hb).below y hy)).symm

namespace Compiled

theorem leaf_inv (hk : schema.leafKind? = some kind) (h : Compiled schema path frame) :
    frame = ⟨[], [.primitive kind path]⟩ := by
  cases h with
  | leaf hk' => rw [Option.some.inj (hk'.symm.trans hk)]
  | slot hi => cases schema <;> cases hi <;> cases hk
  | refined ha => exact absurd (Schema.refined_leaf hk).1 (by simp [ha])
  | _ => cases hk

theorem ofMembers_ok (h : Block.ofMembers discriminator path members = .ok block) :
    ∃ tagClass, TagClass.unify? (members.map (·.1.tagClass)) = some tagClass ∧
      block = .discriminator tagClass.kind
        (members.map fun member => (member.1.coerce tagClass, member.2)) discriminator path := by
  rw [Block.ofMembers] at h
  split at h
  · rename_i tagClass hc
    cases h
    exact ⟨tagClass, hc, rfl⟩
  · cases h

theorem union_block {members : List Schema}
    (h : Compiled (.union discriminator members) path ⟨[block], []⟩) :
    ∃ (parts : List MemberFrame) (tagClass : TagClass), members = parts.map (·.schema) ∧
      (∀ part ∈ parts, ∀ field ∈ part.fields,
        Compiled field.schema (path.child field.name) field.frame) ∧
      (∀ part ∈ parts, Schema.memberTags discriminator path part.schema = .ok part.tags) ∧
      TagClass.unify? ((parts.flatMap (MemberFrame.options discriminator path)).map
        (·.1.tagClass)) = some tagClass ∧
      block = .discriminator tagClass.kind
        ((parts.flatMap (MemberFrame.options discriminator path)).map fun member =>
          (member.1.coerce tagClass, member.2)) discriminator path := by
  obtain ⟨parts, _, hmembers, hframe, hparts, ht, hb⟩ := h.union_inv
  cases hframe
  obtain ⟨tagClass, hclass, hblock⟩ := ofMembers_ok hb
  exact ⟨parts, tagClass, hmembers, hparts, ht, hclass, hblock⟩

theorem path_ofElement (inner : Program) (path : Path) : (Block.ofElement inner path).path = path := by
  unfold Block.ofElement
  split <;> rfl

theorem below_blocks (h : Compiled schema path frame) : Below path frame.blocks := by
  induction h with
  | leaf => exact below_singleton rfl
  | object _ ih =>
    intro block hb
    obtain ⟨part, hp, hb⟩ := Frame.mem_join.mp hb
    exact (Path.below_child _ part.name).trans (ih part hp block hb)
  | union _ _ hb =>
    obtain ⟨tagClass, -, rfl⟩ := ofMembers_ok hb
    exact below_singleton rfl
  | array => exact below_singleton (path_ofElement ..)
  | slot => exact below_singleton rfl
  | refined _ _ ih => exact ih

end Compiled

namespace MemberFrame

theorem mem_options {parts : List MemberFrame} (discriminator : String) (path : Path)
    (hp : part ∈ parts) (ht : tag ∈ part.tags) :
    (tag, part.body discriminator path) ∈ parts.flatMap (options discriminator path) :=
  List.mem_flatMap.mpr ⟨part, hp, List.mem_map.mpr ⟨tag, ht, rfl⟩⟩

/-- Each option is a tag of a member, coerced, with what the tag's own leaf leaves of its frame. -/
theorem mem_coerced {parts : List MemberFrame}
    (h : option ∈ (parts.flatMap (options discriminator path)).map
      fun member => (member.1.coerce tagClass, member.2)) :
    ∃ part ∈ parts, ∃ tag ∈ part.tags,
      option = (tag.coerce tagClass, part.body discriminator path) := by
  obtain ⟨member, hm, rfl⟩ := List.mem_map.mp h
  obtain ⟨part, hp, hm⟩ := List.mem_flatMap.mp hm
  obtain ⟨tag, ht, rfl⟩ := List.mem_map.mp hm
  exact ⟨part, hp, tag, ht, rfl⟩

theorem settles_coerced {parts : List MemberFrame}
    (ht : ∀ part ∈ parts, Schema.memberTags discriminator path part.schema = .ok part.tags)
    (hc : TagClass.unify? ((parts.flatMap (options discriminator path)).map (·.1.tagClass))
      = some tagClass)
    (ho : option ∈ (parts.flatMap (options discriminator path)).map
      fun member => (member.1.coerce tagClass, member.2)) : tagClass.kind.Settles option.1 := by
  obtain ⟨part, hp, tag, htag, rfl⟩ := mem_coerced ho
  obtain ⟨_, _, _, _, _, _, hint⟩ := Schema.memberTags_ok (ht part hp)
  refine Tag.settles_coerce (hint tag htag) (TagClass.unify?_eq_some hc ?_)
  exact List.mem_map.mpr ⟨_, mem_options discriminator path hp htag, rfl⟩

variable {part : MemberFrame}
  (h : ∀ field ∈ part.fields, Compiled field.schema (path.child field.name) field.frame)
  (hn : (part.fields.map (·.name)).Nodup)
  (ht : Schema.memberTags discriminator path part.schema = .ok part.tags)

include h hn ht

/-- Of the blocks of a member only the leaf of the tag is at the tag's path. -/
theorem path_eq_iff (hf : field ∈ part.fields) (hb : block ∈ field.frame.blocks) :
    block.path = path.child discriminator ↔ field.name = discriminator := by
  constructor
  · intro hpath
    refine Classical.byContradiction fun hname => ?_
    have hbelow := (h field hf).below_blocks block hb
    rw [hpath] at hbelow
    exact (Path.apart_child path hname).1 hbelow
  · intro hname
    -- names are distinct, so this is the field that holds the tag
    obtain ⟨fields, kind, schema, hobject, hl, hk, -⟩ := Schema.memberTags_ok ht
    cases hobject
    have hnames : ((part.fields.map FieldFrame.field).map (·.1)).Nodup := by rwa [List.map_map]
    have hfield := lookup_of_mem hnames (List.mem_map_of_mem hf)
    rw [hname, hl] at hfield
    obtain rfl := Option.some.inj hfield
    have hframe := Compiled.leaf_inv hk (h field hf)
    rw [hframe, Frame.blocks_trail, List.mem_singleton] at hb
    rw [hb, Block.path, hname]

/-- Without the leaf of the tag, the blocks of a member are those of its other fields. -/
theorem body_eq_join : part.body discriminator path =
    (Frame.join ((part.fields.filter (·.name != discriminator)).map (·.frame))).blocks := by
  rw [body, frame, Frame.filter_join]
  intro field hf block hb
  rw [Bool.eq_iff_iff, bne_iff_ne, bne_iff_ne, ne_eq, ne_eq, path_eq_iff h hn ht hf hb]

theorem mem_body : block ∈ part.body discriminator path ↔
    ∃ field ∈ part.fields, field.name ≠ discriminator ∧ block ∈ field.frame.blocks := by
  simp only [body_eq_join h hn ht, Frame.mem_join, List.mem_filter, bne_iff_ne, and_assoc]

theorem compile_body : (Schema.object ((part.fields.map FieldFrame.field).filter
    (·.1 != discriminator))).compileInto path [] = .ok (part.body discriminator path) := by
  have hother : Compiled (.object ((part.fields.filter (·.name != discriminator)).map FieldFrame.field))
      path _ := .object fun field hf => h field (List.mem_filter.mp hf).1
  rw [List.filter_map, body_eq_join h hn ht]
  simpa [Frame.blocks, Function.comp_def, FieldFrame.field] using
    Schema.compileInto_of_compiled hother []

theorem apart_body (hb : block ∈ part.body discriminator path) :
    Path.Apart (path.child discriminator) block.path := by
  obtain ⟨field, hf, hname, hb⟩ := (mem_body h hn ht).mp hb
  have hbelow := (h field hf).below_blocks block hb
  exact ((Path.apart_child path hname).below hbelow).symm

end MemberFrame

namespace Compiled

/-- A well-named schema compiles to a well-laid frame. -/
theorem wellLaid (h : Compiled schema path frame) (hn : schema.wellNamed = true)
    (hs : schema.eachSlot test path = true)
    (hr : ∀ path inner frame, Compiled inner path frame → inner.wellNamed = true →
      test path inner = true → WellLaid rule path frame.blocks → rule path frame.blocks) :
    WellLaid rule path frame.blocks := by
  induction h with
  | leaf => exact wellLaid_singleton .primitive rfl
  | object _ ih =>
    obtain ⟨hnames, hparts⟩ := Schema.wellNamed_fields.mp hn
    have hslots := Schema.eachSlot_object.mp hs
    exact wellLaid_join hnames fun part hp =>
      ih part hp (hparts part hp) (hslots _ (List.mem_map_of_mem hp))
  | union hc ht hb ih =>
    rename_i discriminator path block parts
    obtain ⟨hd, hmembers⟩ := Schema.wellNamed_members.mp hn
    have hslots := Schema.eachSlot_union.mp hs
    have hpart : ∀ part ∈ parts, WellLaid rule path part.frame.blocks := by
      intro part hp
      obtain ⟨hnames, hfields⟩ := Schema.wellNamed_fields.mp (hmembers part hp)
      have hslot := Schema.eachSlot_object.mp (hslots _ (List.mem_map_of_mem hp))
      exact wellLaid_join hnames fun field hf =>
        ih part hp field hf (hfields field hf) (hslot _ (List.mem_map_of_mem hf))
    obtain ⟨tagClass, hclass, rfl⟩ := ofMembers_ok hb
    refine wellLaid_singleton (.union hd (fun _ ho => MemberFrame.settles_coerced ht hclass ho)
      ?_ ?_ ?_ ?_) rfl
    all_goals
      intro option ho
      obtain ⟨part, hp, tag, htag, rfl⟩ := MemberFrame.mem_coerced ho
    · exact fun block hblock => (hpart part hp).laid block (List.mem_filter.mp hblock).1
    · exact fun block hblock => (hpart part hp).below block (List.mem_filter.mp hblock).1
    · have hnames := (Schema.wellNamed_fields.mp (hmembers part hp)).1
      exact fun block hblock => MemberFrame.apart_body (hc part hp) hnames (ht part hp) hblock
    · exact (hpart part hp).spread.filter _
  | array _ ih =>
    rw [Schema.wellNamed] at hn
    rw [Schema.eachSlot] at hs
    exact wellLaid_singleton (ih hn hs).laid_ofElement (path_ofElement ..)
  | slot hi h ih =>
    rw [Schema.wellNamed_slot hi] at hn
    obtain ⟨htest, hs⟩ := (Schema.eachSlot_slot hi).mp hs
    have hw := ih hn hs
    exact wellLaid_singleton (.slot hw.laid hw.below hw.spread (hr _ _ _ h hn htest hw)) rfl
  | refined ha _ ih =>
    rw [Schema.wellNamed_refined ha] at hn
    rw [Schema.eachSlot, ha, Bool.false_or] at hs
    exact ih hn hs

theorem eachSlot_true (h : Compiled schema path frame) :
    schema.eachSlot (fun _ _ => true) path = true := by
  induction h with
  | leaf hk => exact Schema.eachSlot_leaf hk
  | object _ ih =>
    refine Schema.eachSlot_object.mpr fun field hf => ?_
    obtain ⟨part, hp, rfl⟩ := List.mem_map.mp hf
    exact ih part hp
  | union _ _ _ ih =>
    refine Schema.eachSlot_union.mpr fun member hm => ?_
    obtain ⟨part, hp, rfl⟩ := List.mem_map.mp hm
    refine Schema.eachSlot_object.mpr fun field hf => ?_
    obtain ⟨field, hfield, rfl⟩ := List.mem_map.mp hf
    exact ih part hp field hfield
  | array _ ih => rwa [Schema.eachSlot]
  | slot hi _ ih => exact (Schema.eachSlot_slot hi).mpr ⟨rfl, ih⟩
  | refined ha _ ih => rwa [Schema.eachSlot, ha, Bool.false_or]

theorem wellLaid_plain (h : Compiled schema path frame) (hn : schema.wellNamed = true) :
    WellLaid (fun _ _ => True) path frame.blocks :=
  h.wellLaid hn h.eachSlot_true fun _ _ _ _ _ _ _ => trivial

end Compiled

end Positional
