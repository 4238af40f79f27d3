import Positional.Proofs.Codec.Canonical
import Positional.Proofs.Program.Yields
import Positional.Proofs.Schema.Conforms
import Positional.Proofs.Schema.Fields

/-!
# The shape of what is decoded

Whatever bytes are accepted, the document has the shape of the schema. Only where a slot is the
document itself, or an element of an array, can it not be absent: there is no field to leave out, and
what remains is the empty object that reading starts from.
-/

namespace Positional

open Value (Reflects)

namespace Schema

/-- What a slot holds has the shape of a schema. `root` tells the root of a document or of an element;
`vacant` allows the empty object there for an optional or nullable schema. -/
inductive Shaped (vacant : Bool) : Schema → (root : Bool) → Option Value → Prop
  | leaf (hk : schema.leafKind? = some kind) (h : kind.holds value = true) :
      Shaped vacant schema root (some value)
  | array (h : ∀ item ∈ items, Shaped vacant element true (some item)) :
      Shaped vacant (.array element) root (some (.array items))
  | absent {inner : Schema} (hi : schema.slotOf? = some inner) : Shaped vacant schema root none
  | null {inner : Schema} (hi : schema.slotOf? = some inner) :
      Shaped vacant schema root (some .null)
  | empty {inner : Schema} (hi : schema.slotOf? = some inner) (hv : vacant = true) :
      Shaped vacant schema true (some (.object []))
  | slot {inner : Schema} (hi : schema.slotOf? = some inner) (h : Shaped vacant inner root found) :
      Shaped vacant schema root found
  | refined {inner : Schema} (ha : isBytesCheck accepts = false)
      (h : Shaped vacant inner root found) : Shaped vacant (.refined accepts inner) root found
  | missing (h : ∀ field ∈ fields, Shaped vacant field.2 false none) :
      Shaped vacant (.object fields) root none
  | object (h : ∀ field ∈ fields, Shaped vacant field.2 false (values.lookup field.1)) :
      Shaped vacant (.object fields) root (some (.object values))
  | union (hu : unionClass? discriminator members = some tagClass)
      (ht : values.lookup discriminator = some tag) (hk : tagClass.kind.holds tag = true)
      (h : ∀ fields, memberFor? tagClass discriminator members tag = some (.object fields) →
        ∀ field ∈ fields, field.1 ≠ discriminator →
          Shaped vacant field.2 false (values.lookup field.1)) :
      Shaped vacant (.union discriminator members) root (some (.object values))

end Schema

/-- Whatever the blocks of a frame assign, a document that reflects it has the shape of the schema at
the path; the root is the empty object if nothing was assigned. -/
def Shapes (schema : Schema) (path : Path) (blocks : Program) : Prop :=
  ∀ (own : Block → Writes) (y : Value), (∀ block ∈ blocks, block.Yields (own block)) →
    Reflects y path (blocks.flatMap own) → (path = [] → blocks.flatMap own = [] → y = .object []) →
    schema.Shaped true path.isEmpty (y.lookup path)

namespace Compiled

variable {path : Path} {y : Value}

theorem shaped_of_yieldsAll (h : Shapes schema path blocks) (hs : Spread blocks)
    (hyields : Block.YieldsAll blocks writes) (hy : Reflects y path writes)
    (hempty : path = [] → writes = [] → y = .object []) :
    schema.Shaped true path.isEmpty (y.lookup path) := by
  obtain ⟨own, hown, rfl⟩ := hyields.exists_own hs
  exact h own y hown hy hempty

theorem lookup_of_singleton {own : Block → Writes} (hy : Reflects y path ([block].flatMap own))
    (h : own block = [(path, value)]) : y.lookup path = some value :=
  hy.holds (path, value) (by simp [h])

theorem shapes_leaf (hk : schema.leafKind? = some kind) :
    Shapes schema path [.primitive kind path] := by
  intro own y hown hy _
  obtain ⟨value, hvalue, heq⟩ := hown _ (List.mem_singleton_self _)
  rw [lookup_of_singleton hy heq]
  exact .leaf hk hvalue

-- ---------------------------------------------------------------------------
-- Arrays and slots
-- ---------------------------------------------------------------------------

theorem shaped_scalar (h : Shapes element [] [.primitive kind []]) (hv : kind.holds value = true) :
    element.Shaped true true (some value) := by
  have hy : Reflects value [] [([], value)] := by
    refine ⟨by simp [Value.lookup], fun q _ _ happ => ?_⟩
    exact absurd List.nil_prefix (happ _ (List.mem_singleton_self _)).1
  exact h (fun _ => [([], value)]) value (List.forall_mem_singleton.mpr ⟨value, hv, rfl⟩) hy
    fun _ hnil => by cases hnil

theorem shaped_record {inner : Program} (h : Shapes element [] inner) (hw : WellLaid rule [] inner)
    (hyields : Block.YieldsAll inner writes) :
    element.Shaped true true (some (.ofWrites writes)) := by
  obtain ⟨own, hown, rfl⟩ := hyields.exists_own hw.spread
  have hunder := Block.under_flatMap hw.below hw.spread fun block hb =>
    (hw.laid block hb).under_yields (hown block hb)
  refine h own _ hown (Value.reflects_assignAll (Value.blank_empty []) hunder.spread) fun _ hnil => ?_
  rw [hnil]
  rfl

theorem shapes_array {inner : Program} (h : Shapes element [] inner) (hw : WellLaid rule [] inner) :
    Shapes (.array element) path [.ofElement inner path] := by
  intro own y hown hy _
  have hyields := hown _ (List.mem_singleton_self _)
  rw [List.flatMap_singleton] at hy
  generalize own (.ofElement inner path) = writes at hyields hy
  suffices hitems : ∃ items, writes = [(path, .array items)] ∧
      ∀ item ∈ items, element.Shaped true true (some item) by
    obtain ⟨items, rfl, hitems⟩ := hitems
    rw [hy.holds _ (List.mem_singleton_self _)]
    exact .array hitems
  unfold Block.ofElement at hyields
  split at hyields
  · obtain ⟨items, heq, hitems⟩ := hyields
    exact ⟨items, heq, fun item hi => shaped_scalar h (hitems item hi)⟩
  · obtain ⟨items, heq, hitems⟩ := hyields
    refine ⟨items, heq, fun item hi => ?_⟩
    obtain ⟨own, hown, rfl⟩ := hitems item hi
    exact shaped_record h hw hown

theorem shapes_slot {inner : Schema} (hi : schema.slotOf? = some inner) (h : Shapes inner path wrapped)
    (hs : Spread wrapped) : Shapes schema path [.ofSlot wrapped path] := by
  intro own y hown hy hempty
  rw [List.flatMap_singleton] at hy hempty
  obtain hnil | hnull | hbody := Block.yields_ofSlot (hown _ (List.mem_singleton_self _))
  · rw [hnil] at hy hempty
    by_cases hpath : path = []
    · rw [hempty hpath rfl, hpath]
      exact .empty hi rfl
    · rw [hy.absent List.prefix_rfl hpath]
      exact .absent hi
  · rw [hnull] at hy
    rw [hy.holds _ (List.mem_singleton_self _)]
    exact .null hi
  · exact .slot hi (shaped_of_yieldsAll h hs hbody hy hempty)

-- ---------------------------------------------------------------------------
-- Objects and unions
-- ---------------------------------------------------------------------------

theorem under_own (h : Compiled schema path frame) (hn : schema.wellNamed = true)
    {own : Block → Writes} (hown : ∀ block ∈ frame.blocks, block.Yields (own block)) :
    Writes.Under (frame.blocks.flatMap own) path := by
  have hw := h.wellLaid_plain hn
  exact Block.under_flatMap hw.below hw.spread fun block hb =>
    (hw.laid block hb).under_yields (hown block hb)

/-- Where all assignments are below a place, it holds an object or nothing; the root is an object in
any case. -/
theorem object_or_absent {writes : Writes} (hy : Reflects y path writes)
    (hbelow : ∀ write ∈ writes, path <+: write.1 ∧ write.1 ≠ path)
    (hempty : path = [] → writes = [] → y = .object []) :
    y.lookup path = none ∨ ∃ values, y.lookup path = some (.object values) := by
  cases writes with
  | nil =>
    by_cases hpath : path = []
    · rw [hempty hpath rfl, hpath]
      exact .inr ⟨[], rfl⟩
    · exact .inl (hy.absent List.prefix_rfl hpath)
  | cons write rest =>
    have hmem : write ∈ write :: rest := List.mem_cons_self ..
    obtain ⟨hunder, hne⟩ := hbelow write hmem
    exact .inr (Value.object_of_lookup_below (hy.holds write hmem) hunder hne)

section
variable {parts : List FieldFrame} {own : Block → Writes} {writes : Writes}
  (hnames : (parts.map (·.name)).Nodup) (hn : ∀ part ∈ parts, part.schema.wellNamed = true)
  (hparts : ∀ part ∈ parts, Compiled part.schema (path.child part.name) part.frame)
  (hown : ∀ part ∈ parts, ∀ block ∈ part.frame.blocks, block.Yields (own block))

include hnames hn hparts hown

theorem shaped_fields
    (h : ∀ part ∈ parts, Shapes part.schema (path.child part.name) part.frame.blocks)
    (hy : Reflects y path writes)
    (hin : ∀ part ∈ parts, ∀ write ∈ part.frame.blocks.flatMap own, write ∈ writes)
    (hout : ∀ write ∈ writes, (∀ part ∈ parts, Path.Apart write.1 (path.child part.name)) ∨
      ∃ part ∈ parts, write ∈ part.frame.blocks.flatMap own) :
    ∀ part ∈ parts, part.schema.Shaped true false (y.lookup (path.child part.name)) := by
  intro part hp
  have hpart := hy.at_name
    (fun part hp => ((hparts part hp).under_own (hn part hp) (hown part hp)).below) hnames hp
    (hin part hp) fun write hw => (hout write hw).imp_left fun happ => happ part hp
  have hroot : (path.child part.name).isEmpty = false := by simp [Path.child]
  rw [← hroot]
  exact h part hp own y (hown part hp) hpart fun hnil => absurd hnil (Path.child_ne_nil _ _)

end

theorem shapes_object {parts : List FieldFrame}
    (hn : (Schema.object (parts.map FieldFrame.field)).wellNamed = true)
    (hparts : ∀ part ∈ parts, Compiled part.schema (path.child part.name) part.frame)
    (h : ∀ part ∈ parts, Shapes part.schema (path.child part.name) part.frame.blocks) :
    Shapes (.object (parts.map FieldFrame.field)) path (Frame.join (parts.map (·.frame))).blocks := by
  intro own y hown hy hempty
  obtain ⟨hnames, hn⟩ := Schema.wellNamed_fields.mp hn
  have hown : ∀ part ∈ parts, ∀ block ∈ part.frame.blocks, block.Yields (own block) :=
    fun part hp block hb => hown block (Frame.mem_join.mpr ⟨part, hp, hb⟩)
  have hshaped := shaped_fields hnames hn hparts hown h hy
    (fun part hp write hw => Frame.mem_flatMap_join.mpr ⟨part, hp, hw⟩)
    fun write hw => .inr (Frame.mem_flatMap_join.mp hw)
  have hbelow : ∀ write ∈ (Frame.join (parts.map (·.frame))).blocks.flatMap own,
      path <+: write.1 ∧ write.1 ≠ path := by
    intro write hw
    obtain ⟨part, hp, hw⟩ := Frame.mem_flatMap_join.mp hw
    have hbelow := ((hparts part hp).under_own (hn part hp) (hown part hp)).below write hw
    exact ⟨(Path.below_child path part.name).trans hbelow,
      fun heq => Path.not_child_below path part.name (heq ▸ hbelow)⟩
  rcases object_or_absent hy hbelow hempty with hx | ⟨values, hx⟩
  all_goals
    simp only [Value.lookup_child, hx] at hshaped
    rw [hx]
  · refine .missing fun field hf => ?_
    obtain ⟨part, hp, rfl⟩ := List.mem_map.mp hf
    exact hshaped part hp
  · refine .object fun field hf => ?_
    obtain ⟨part, hp, rfl⟩ := List.mem_map.mp hf
    exact hshaped part hp

theorem shaped_member {part : MemberFrame} (hn : part.schema.wellNamed = true)
    (hc : ∀ field ∈ part.fields, Compiled field.schema (path.child field.name) field.frame)
    (ht : Schema.memberTags discriminator path part.schema = .ok part.tags)
    (h : ∀ field ∈ part.fields, Shapes field.schema (path.child field.name) field.frame.blocks)
    (hyields : Block.YieldsAll (part.body discriminator path) body)
    (hy : Reflects y path ((path.child discriminator, tag) :: body)) :
    ∀ field ∈ part.fields, field.name ≠ discriminator →
      field.schema.Shaped true false (y.lookup (path.child field.name)) := by
  have hspread : Spread (part.body discriminator path) :=
    ((Compiled.object hc).wellLaid_plain hn).spread.filter _
  obtain ⟨own, hown, rfl⟩ := hyields.exists_own hspread
  obtain ⟨hnames, hfields⟩ := Schema.wellNamed_fields.mp hn
  rw [MemberFrame.body_eq_join hc hnames ht] at hown hy
  have hmem : ∀ field, field ∈ part.fields.filter (·.name != discriminator) ↔
      field ∈ part.fields ∧ field.name ≠ discriminator := fun field => by
    rw [List.mem_filter, bne_iff_ne]
  have hshaped := shaped_fields (hnames.sublist (List.filter_sublist.map _))
    (fun field hf => hfields field ((hmem field).mp hf).1)
    (fun field hf => hc field ((hmem field).mp hf).1)
    (fun field hf block hb => hown block (Frame.mem_join.mpr ⟨field, hf, hb⟩))
    (fun field hf => h field ((hmem field).mp hf).1) hy
    (fun field hf write hw => List.mem_cons_of_mem _ (Frame.mem_flatMap_join.mpr ⟨field, hf, hw⟩)) ?_
  · exact fun field hf hne => hshaped field ((hmem field).mpr ⟨hf, hne⟩)
  · intro write hw
    rcases List.mem_cons.mp hw with rfl | hw
    · exact .inl fun field hf => Path.apart_child path ((hmem field).mp hf).2.symm
    · exact .inr (Frame.mem_flatMap_join.mp hw)

theorem shapes_union {parts : List MemberFrame}
    (hn : (Schema.union discriminator (parts.map (·.schema))).wellNamed = true)
    (hc : ∀ part ∈ parts, ∀ field ∈ part.fields,
      Compiled field.schema (path.child field.name) field.frame)
    (ht : ∀ part ∈ parts, Schema.memberTags discriminator path part.schema = .ok part.tags)
    (hb : Block.ofMembers discriminator path
      (parts.flatMap (MemberFrame.options discriminator path)) = .ok block)
    (h : ∀ part ∈ parts, ∀ field ∈ part.fields,
      Shapes field.schema (path.child field.name) field.frame.blocks) :
    Shapes (.union discriminator (parts.map (·.schema))) path [block] := by
  intro own y hown hy _
  obtain ⟨hd, hmembers⟩ := Schema.wellNamed_members.mp hn
  obtain ⟨tagClass, hclass, rfl⟩ := ofMembers_ok hb
  obtain ⟨tag, body, htag, hbody, hwrites⟩ := hown _ (List.mem_singleton_self _)
  rw [List.flatMap_singleton, hwrites, tagWrites, Value.tellsPresence_of_ne hd,
    if_neg Bool.false_ne_true, List.singleton_append] at hy
  have hfound := hy.holds (path.child discriminator, tag) (List.mem_cons_self ..)
  obtain ⟨values, hvalues⟩ := Value.object_of_lookup_below hfound
    (Path.below_child path discriminator) (Path.child_ne_self path discriminator)
  have hlookup : ∀ name, y.lookup (path.child name) = values.lookup name := fun name => by
    rw [Value.lookup_child, hvalues]
    rfl
  rw [hvalues]
  refine .union ((MemberFrame.unionClass?_eq ht).trans hclass) (hlookup _ ▸ hfound) htag
    fun fields hm field hf hne => ?_
  obtain ⟨part, hp, hschema, hselect⟩ := MemberFrame.select_of_memberFor? ht hm
  cases hschema
  obtain ⟨field, hfield, rfl⟩ := List.mem_map.mp hf
  rw [Block.yieldsOption_iff, hselect] at hbody
  rw [← hlookup]
  exact shaped_member (hmembers part hp) (hc part hp) (ht part hp) (h part hp)
    hbody hy field hfield hne

/-- Whatever the blocks of a schema assign, the document has its shape. -/
theorem shapes (h : Compiled schema path frame) (hn : schema.wellNamed = true) :
    Shapes schema path frame.blocks := by
  induction h with
  | leaf hk => exact shapes_leaf hk
  | object hparts ih =>
    exact shapes_object hn hparts fun part hp =>
      ih part hp ((Schema.wellNamed_fields.mp hn).2 part hp)
  | union hc ht hb ih =>
    refine shapes_union hn hc ht hb fun part hp field hf => ih part hp field hf ?_
    exact (Schema.wellNamed_fields.mp ((Schema.wellNamed_members.mp hn).2 part hp)).2 field hf
  | array h ih =>
    rw [Schema.wellNamed] at hn
    exact shapes_array (ih hn) (h.wellLaid_plain hn)
  | slot hi h ih =>
    rw [Schema.wellNamed_slot hi] at hn
    exact shapes_slot hi (ih hn) (h.wellLaid_plain hn).spread
  | refined ha _ ih =>
    rw [Schema.wellNamed_refined ha] at hn
    exact fun own y hown hy hempty => .refined ha (ih hn own y hown hy hempty)

end Compiled

namespace Schema

/-- Whatever bytes are accepted, the document has the shape of the schema, where an optional or
nullable schema at the root or as an element may also be the empty object. -/
theorem decode_shaped {schema : Schema} (hc : schema.compile = .ok program)
    (hn : schema.wellNamed = true) (h : program.decode options buffer = .ok y) :
    schema.Shaped true true (some y) := by
  obtain ⟨frame, hf, rfl⟩ := compile_ok hc
  obtain ⟨writes, last, hread, rfl⟩ := Program.decode_ok h
  exact Compiled.shaped_record (hf.shapes hn) (hf.wellLaid_plain hn) (Block.yieldsAll_of_read _ hread)

theorem decode_shaped_items : ∃ program, (array (optional string)).compile = .ok program ∧
    program.decode {} [2, 1, 1, 97, 2] = .ok (.array [.text "a", .null]) ∧
    (array (optional string)).Shaped true true (some (.array [.text "a", .null])) := by
  have hc : (array (optional string)).compile
      = .ok [.array .object [.ofSlot [.primitive .string []] []] []] := rfl
  have h : Program.decode [.array .object [.ofSlot [.primitive .string []] []] []] {}
      [2, 1, 1, 97, 2] = .ok (.array [.text "a", .null]) := rfl
  exact ⟨_, hc, h, decode_shaped hc rfl h⟩

/-- An element whose tag says that it is absent is the empty object, neither a text nor null. -/
theorem decode_unshaped : ∃ program, (array (optional string)).compile = .ok program ∧
    program.decode {} [1, 0] = .ok (.array [.object []]) ∧
    ¬ (array (optional string)).Shaped false true (some (.array [.object []])) := by
  refine ⟨_, rfl, rfl, fun hshaped => ?_⟩
  cases hshaped with
  | leaf hk => cases hk
  | slot hi => cases hi
  | array hitems =>
    cases hitems _ (List.mem_singleton_self _) with
    | leaf hk => cases hk
    | empty hi hv => cases hv
    | slot hi htext =>
      cases hi
      cases htext with
      | leaf hk hv =>
        cases hk
        cases hv
      | slot hi => cases hi
      | empty hi => cases hi

end Schema

end Positional
