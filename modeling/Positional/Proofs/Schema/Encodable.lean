import Positional.Proofs.Schema.Conforms

/-!
# What can be written

A slot fits a schema when every block finds what it needs there: leaves that their kind carries, a
tag for every union with what the selected member needs, and elements that fit in their turn. Unlike
what conforms, it may hold other fields beside and be of a form that does not come back whole.
-/

namespace Positional

-- ---------------------------------------------------------------------------
-- Arrays of either form
-- ---------------------------------------------------------------------------

theorem Emission.concat_succeeds {f : α → Emission} {items : List α}
    (h : ∀ item ∈ items, ∃ written, f item = .ofBytes written) :
    ∃ written, concat (items.map f) = .ofBytes written := by
  induction items with
  | nil => exact ⟨[], rfl⟩
  | cons item items ih =>
    obtain ⟨a, ha⟩ := h item (List.mem_cons_self ..)
    obtain ⟨b, hb⟩ := ih fun i hi => h i (List.mem_cons_of_mem _ hi)
    exact ⟨a ++ b, concat_cons_eq_ofBytes.mpr ⟨a, b, ha, hb, rfl⟩⟩

theorem flags_of_encode? {items : List Value}
    (h : ∀ item ∈ items, ∃ written, Kind.boolean.encode? item = some written) :
    ∃ flags : List Bool, items = flags.map .bool := by
  induction items with
  | nil => exact ⟨[], rfl⟩
  | cons item items ih =>
    obtain ⟨flags, rfl⟩ := ih fun i hi => h i (List.mem_cons_of_mem _ hi)
    obtain ⟨written, hw⟩ := h item (List.mem_cons_self ..)
    cases item with
    | bool flag => exact ⟨flag :: flags, rfl⟩
    | _ => cases hw

theorem emitElements_succeeds (path : Path)
    (h : ∀ item ∈ items, ∃ written, kind.encode? item = some written) :
    ∃ written, emitElements kind path items = .ofBytes written := by
  by_cases hk : kind = .boolean
  · subst hk
    obtain ⟨flags, hflags⟩ := flags_of_encode? h
    exact ⟨_, Block.emitElements_boolean_ok.mpr ⟨flags, hflags, rfl⟩⟩
  · obtain ⟨written, hw⟩ := Emission.concat_succeeds (f := kind.emit []) fun item hi => by
      obtain ⟨written, henc⟩ := h item hi
      exact ⟨written, Kind.emit_eq_ofBytes.mpr henc⟩
    exact ⟨written, (Block.emitElements_ok hk).mpr hw⟩

theorem Block.emits_ofElement {inner : Program} {path : Path} {x : Value}
    (hk : ∀ kind path, .primitive kind path ∈ inner → kind.check = .ok ())
    (hx : x.lookup path = some (.array items))
    (h : ∀ item ∈ items, ∃ written, emitAll inner item = .ofBytes written) :
    ∃ written, (ofElement inner path).emit x = .ofBytes written := by
  unfold ofElement
  split
  · rename_i kind
    have hencode : ∀ item ∈ items, ∃ written, kind.encode? item = some written := by
      intro item hi
      obtain ⟨written, hw⟩ := h item hi
      rw [emitAll_singleton, emit_primitive_ok] at hw
      exact ⟨written, hw⟩
    obtain ⟨tail, htail⟩ := emitElements_succeeds path hencode
    exact ⟨_, emit_array_ok.mpr ⟨hk kind [] (List.mem_singleton_self _), items, tail, hx, rfl, htail⟩⟩
  · obtain ⟨tail, htail⟩ := Emission.concat_succeeds h
    exact ⟨_, emit_array_ok.mpr ⟨rfl, items, tail, hx, rfl, htail⟩⟩

namespace Compiled

theorem known_kind (h : Compiled schema path frame) (hb : .primitive kind q ∈ frame.blocks) :
    kind.check = .ok () := by
  induction h with
  | leaf hk =>
    rw [Frame.blocks_trail, List.mem_singleton] at hb
    cases hb
    exact Schema.leafKind_known hk
  | object _ ih =>
    obtain ⟨part, hp, hb⟩ := Frame.mem_join.mp hb
    exact ih part hp hb
  | union _ _ hm =>
    obtain ⟨tagClass, -, rfl⟩ := ofMembers_ok hm
    cases List.mem_singleton.mp hb
  | array =>
    rw [Frame.blocks_trail, List.mem_singleton] at hb
    unfold Block.ofElement at hb
    split at hb <;> cases hb
  | slot => cases List.mem_singleton.mp hb
  | refined _ _ ih => exact ih hb

theorem echo_omitted (h : Compiled schema path frame) (ho : schema.omittable = true)
    (hx : x.lookup path = none) : Block.echoAll frame.blocks x = [] := by
  induction h with
  | slot hi h =>
    rw [Frame.blocks_trail, Block.echoAll_singleton]
    exact Block.echo_ofSlot_absent hx
  | refined hb _ ih =>
    rw [Schema.omittable, hb, Bool.not_false, Bool.true_and] at ho
    exact ih ho hx
  | leaf hk =>
    cases (Schema.not_omittable_leaf hk).symm.trans ho
  | _ => cases ho

end Compiled

namespace Schema

/-- What a slot holds can be written under a schema. -/
inductive Fits : Schema → Option Value → Prop
  | leaf (hk : schema.leafKind? = some kind) (h : kind.encode? value = some written) :
      Fits schema (some value)
  | array (h : ∀ item ∈ items, Fits element (some item)) :
      Fits (.array element) (some (.array items))
  | absent {inner : Schema} (hi : schema.slotOf? = some inner) : Fits schema none
  | null {inner : Schema} (hi : schema.slotOf? = some inner) : Fits schema (some .null)
  | slot {inner : Schema} (hi : schema.slotOf? = some inner) (h : Fits inner (some value)) :
      Fits schema (some value)
  | refined {inner : Schema} (hb : isBytesCheck accepts = false) (h : Fits inner found) :
      Fits (.refined accepts inner) found
  | object (h : ∀ field ∈ fields, Fits field.2 (values.lookup field.1)) :
      Fits (.object fields) (some (.object values))
  | union (hu : unionClass? discriminator members = some tagClass)
      (ht : values.lookup discriminator = some tag)
      (he : tagClass.kind.encode? tag = some written)
      (h : ∀ fields, memberFor? tagClass discriminator members tag = some (.object fields) →
        ∀ field ∈ fields, field.1 ≠ discriminator → Fits field.2 (values.lookup field.1)) :
      Fits (.union discriminator members) (some (.object values))

theorem Fits.of_omittable : (schema : Schema) → schema.omittable = true → Fits schema none
  | .optional _, _ | .nullable _, _ => .absent rfl
  | .refined accepts inner, h => by
    rw [omittable, Bool.and_eq_true, Bool.not_eq_true'] at h
    exact .refined h.1 (of_omittable inner h.2)

theorem Conforms.fits (h : Conforms schema root v) : Fits schema (some v) := by
  have hfield : ∀ {values : List (String × Value)} {field : String × Schema},
      (values.lookup field.1 = none → field.2.omittable = true) →
      (∀ value, values.lookup field.1 = some value → Fits field.2 (some value)) →
      Fits field.2 (values.lookup field.1) := by
    intro values field ha h
    cases hl : values.lookup field.1 with
    | none => exact .of_omittable field.2 (ha hl)
    | some value => exact h value hl
  induction h with
  | leaf hk hb =>
    obtain ⟨written, hw⟩ := Kind.encode?_of_bears hb
    exact .leaf hk hw
  | array _ ih => exact .array ih
  | null hi => exact .null hi
  | slot hi _ ih => exact .slot hi ih
  | refined hb _ ih => exact .refined hb ih
  | object _ _ ha _ _ ih => exact .object fun field hf => hfield (ha field hf) (ih field hf)
  | union _ hu ht hb hm _ ha _ ih =>
    obtain ⟨written, hw⟩ := Kind.encode?_of_bears hb
    refine .union hu ht hw fun fields hfields field hf hne => ?_
    cases hm.symm.trans hfields
    exact hfield (ha field hf) (ih field hf hne)

end Schema

namespace Compiled

/-- A union writes its tag and then what the chosen member's body writes. -/
theorem emit_union {parts : List MemberFrame} (hd : discriminator ≠ "")
    (hb : Block.ofMembers discriminator path
      (parts.flatMap (MemberFrame.options discriminator path)) = .ok block)
    (hu : TagClass.unify? ((parts.flatMap (MemberFrame.options discriminator path)).map
      (·.1.tagClass)) = some tagClass)
    (ht : x.lookup (path.child discriminator) = some tag)
    (he : tagClass.kind.encode? tag = some head)
    (hbody : Block.emitAll (MemberFrame.chosenBody parts tagClass tag discriminator path) x
      = .ofBytes tail) : block.emit x = .ofBytes (head ++ tail) := by
  obtain ⟨_, hclass, rfl⟩ := ofMembers_ok hb
  cases hclass.symm.trans hu
  have htag : x.tagAt path discriminator = tag := by
    rw [Value.tagAt_field x path hd, Value.held_of_lookup ht]
  refine Block.emit_discriminator_ok.mpr ⟨fun _ => by simp [ht], head, tail, ?_, ?_, rfl⟩
  · rw [htag]
    exact he
  · rw [htag, Block.emitOption_eq_body, MemberFrame.body_eq]
    exact hbody

theorem emits_join {parts : List FieldFrame}
    (h : ∀ part ∈ parts, ∃ written, Block.emitAll part.frame.blocks x = .ofBytes written) :
    ∃ written, Block.emitAll (Frame.join (parts.map (·.frame))).blocks x = .ofBytes written := by
  refine Block.emitAll_succeeds.mpr fun block hb => ?_
  obtain ⟨part, hp, hb⟩ := Frame.mem_join.mp hb
  exact Block.emitAll_succeeds.mp (h part hp) block hb

theorem emits_body {part : MemberFrame}
    (h : ∀ field ∈ part.fields, Compiled field.schema (path.child field.name) field.frame)
    (hn : (part.fields.map (·.name)).Nodup)
    (ht : Schema.memberTags discriminator path part.schema = .ok part.tags)
    (hf : ∀ field ∈ part.fields, field.name ≠ discriminator →
      ∃ written, Block.emitAll field.frame.blocks x = .ofBytes written) :
    ∃ written, Block.emitAll (part.body discriminator path) x = .ofBytes written := by
  rw [MemberFrame.body_eq_join h hn ht]
  refine emits_join fun field hmem => ?_
  obtain ⟨hmem, hne⟩ := List.mem_filter.mp hmem
  exact hf field hmem (bne_iff_ne.mp hne)

/-- What fits can be written. -/
theorem emits_of_fits (h : Compiled schema path frame) (hn : schema.wellNamed = true)
    (hv : schema.Fits (x.lookup path)) :
    ∃ written, Block.emitAll frame.blocks x = .ofBytes written := by
  generalize hx : x.lookup path = found at hv
  induction hv generalizing path frame x with
  | leaf hk hw =>
    obtain rfl := leaf_inv hk h
    rw [Frame.blocks_trail, Block.emitAll_singleton]
    exact ⟨_, Block.emit_primitive_ok.mpr (Value.held_of_lookup hx ▸ hw)⟩
  | array _ ih =>
    obtain ⟨inner, hc, rfl⟩ := h.array_inv
    rw [Schema.wellNamed] at hn
    rw [Frame.blocks_trail, Block.emitAll_singleton]
    exact Block.emits_ofElement (fun kind path hk => hc.known_kind hk) hx fun item hi =>
      ih item hi hc hn rfl
  | absent hi =>
    obtain ⟨wrapped, -, rfl⟩ := slot_inv hi h
    exact ⟨_, (Block.emitAll_singleton ..).trans (Block.emit_ofSlot_absent hx)⟩
  | null hi =>
    obtain ⟨wrapped, -, rfl⟩ := slot_inv hi h
    exact ⟨_, (Block.emitAll_singleton ..).trans (Block.emit_ofSlot_null hx)⟩
  | @slot value schema inner hi _ ih =>
    obtain ⟨wrapped, hc, rfl⟩ := slot_inv hi h
    rw [Schema.wellNamed_slot hi] at hn
    rw [Frame.blocks_trail, Block.emitAll_singleton]
    by_cases hnull : value = .null
    · exact ⟨_, Block.emit_ofSlot_null (hnull ▸ hx)⟩
    · obtain ⟨tail, htail⟩ := ih hc hn hx
      refine ⟨Wire.varint 1 ++ tail, ?_⟩
      rw [Block.emit_ofSlot_present hx hnull, htail]
      rfl
  | refined hb _ ih =>
    rw [Schema.wellNamed_refined hb] at hn
    exact ih (refined_inv hb h) hn hx
  | object _ ih =>
    obtain ⟨parts, rfl, rfl, hparts⟩ := h.object_inv
    refine emits_join fun part hp => ?_
    have hf := List.mem_map_of_mem (f := FieldFrame.field) hp
    refine ih _ hf (hparts part hp) ((Schema.wellNamed_fields.mp hn).2 part hp) ?_
    rw [Value.lookup_child, hx]
    rfl
  | @union discriminator members tagClass tag head values hu ht he _ ih =>
    obtain ⟨parts, block, rfl, rfl, hc, htags, hb⟩ := h.union_inv
    obtain ⟨hd, hmembers⟩ := Schema.wellNamed_members.mp hn
    rw [MemberFrame.unionClass?_eq htags] at hu
    have hlookup : ∀ name, x.lookup (path.child name) = values.lookup name := fun name => by
      rw [Value.lookup_child, hx]
      rfl
    suffices hbody : ∃ tail,
        Block.emitAll (MemberFrame.chosenBody parts tagClass tag discriminator path) x = .ofBytes tail by
      obtain ⟨tail, htail⟩ := hbody
      rw [Frame.blocks_lead, Block.emitAll_singleton]
      exact ⟨_, emit_union hd hb hu ((hlookup _).trans ht) he htail⟩
    rw [MemberFrame.chosenBody]
    cases hchosen : MemberFrame.chosen? parts tagClass tag with
    | none => exact ⟨[], rfl⟩
    | some entry =>
      obtain ⟨own, part⟩ := entry
      have hp := (MemberFrame.mem_of_chosen? hchosen).1
      obtain ⟨hnames, hfields⟩ := Schema.wellNamed_fields.mp (hmembers part hp)
      have hm : Schema.memberFor? tagClass discriminator (parts.map (·.schema)) tag
          = some part.schema := by
        rw [MemberFrame.memberFor?_eq htags, hchosen, Option.map_some]
      refine emits_body (hc part hp) hnames (htags part hp) fun field hf hne => ?_
      have hmem := List.mem_map_of_mem (f := FieldFrame.field) hf
      exact ih _ hm _ hmem hne (hc part hp field hf) (hfields field hf) (hlookup field.name)

theorem emits (h : Compiled schema path frame) (hn : schema.wellNamed = true)
    (hv : schema.Conforms root v) (hx : x.lookup path = some v) :
    ∃ written, Block.emitAll frame.blocks x = .ofBytes written :=
  h.emits_of_fits hn (hx ▸ hv.fits)

end Compiled

end Positional
