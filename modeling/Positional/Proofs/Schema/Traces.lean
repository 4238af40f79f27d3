import Positional.Proofs.Program.Echo
import Positional.Proofs.Schema.Names

/-!
# What leaves a trace

Presence is no part of the data that is read: a slot is present afterwards only because something
was assigned at its path or below. `Schema.traces` tells whether a schema leaves any assignment, for
what a document holds in its place, and `Schema.shows` whether it leaves more than a null at a slot
that is present. An object none of whose fields leaves a trace vanishes.
-/

namespace Positional

namespace Schema

mutual

/-- Whether anything is read back in the place of a schema. -/
def traces : Schema → Option Value → Bool
  | object fields, slot => tracesFields fields slot
  | optional inner, slot | nullable inner, slot =>
    match slot with
    | none => false
    | some .null => true
    | some value => inner.traces (some value)
  | refined accepts inner, slot => isBytesCheck accepts || inner.traces slot
  | _, _ => true

def tracesFields : List (String × Schema) → Option Value → Bool
  | [], _ => false
  | (name, schema) :: rest, slot =>
    schema.traces (slot.bind (·.fields.lookup name)) || tracesFields rest slot

end

/-- Whether a slot around a schema is told present again, for the value that it holds. -/
def shows : Schema → Value → Bool
  | null, _ => false
  | object fields, value => tracesFields fields (some value)
  | optional inner, value | nullable inner, value => inner.shows value
  | refined accepts inner, value => isBytesCheck accepts || inner.shows value
  | _, _ => true

theorem traces_object : (object fields).traces slot = true ↔
    ∃ field ∈ fields, field.2.traces (slot.bind (·.fields.lookup field.1)) = true := by
  rw [traces]
  induction fields with
  | nil => simp [tracesFields]
  | cons field rest ih => simp [tracesFields, ih]

theorem traces_leaf {schema : Schema} (hk : schema.leafKind? = some kind) :
    schema.traces slot = true := by
  cases schema with
  | refined accepts inner => rw [traces, (refined_leaf hk).1, Bool.true_or]
  | _ => first | rfl | cases hk

theorem traces_slot_absent {schema inner : Schema} (h : schema.slotOf? = some inner) :
    schema.traces none = false := by
  cases schema <;> cases h <;> rfl

theorem traces_slot_null {schema inner : Schema} (h : schema.slotOf? = some inner) :
    schema.traces (some .null) = true := by
  cases schema <;> cases h <;> rfl

theorem traces_slot_present {schema inner : Schema} (h : schema.slotOf? = some inner)
    (hv : v ≠ .null) : schema.traces (some v) = inner.traces (some v) := by
  cases schema <;> cases h <;> cases v <;> first | rfl | exact absurd rfl hv

theorem traces_slot_of {schema inner : Schema} (h : schema.slotOf? = some inner)
    (ht : inner.traces (some v) = true) : schema.traces (some v) = true := by
  by_cases hv : v = .null
  · rw [hv]
    exact traces_slot_null h
  · rwa [traces_slot_present h hv]

theorem shows_slot {schema inner : Schema} (h : schema.slotOf? = some inner) :
    schema.shows v = inner.shows v := by
  cases schema <;> cases h <;> rw [shows]

theorem shows_leaf {schema : Schema} (h : schema.leafKind? = some kind) :
    schema.shows v = true ↔ kind ≠ .null := by
  cases schema with
  | null =>
    cases h
    simp [shows]
  | number checks =>
    cases h
    simp only [shows, numberKind, true_iff]
    split
    · split <;> simp
    · simp
  | literal constant => cases constant <;> cases h <;> simp [shows]
  | refined accepts inner =>
    obtain ⟨hb, rfl⟩ := refined_leaf h
    simp [shows, hb]
  | _ => cases h <;> simp [shows]

end Schema

-- ---------------------------------------------------------------------------
-- Traces are what the echo assigns
-- ---------------------------------------------------------------------------

namespace Block

variable {path : Path} {x : Value}

theorem mem_echoAll_singleton : write ∈ echoAll [block] x ↔ write ∈ block.echo x := by
  rw [mem_echoAll]
  simp

theorem echoAll_singleton (block : Block) (x : Value) : echoAll [block] x = block.echo x :=
  List.append_nil _

theorem mem_echoAll_join {parts : List FieldFrame} :
    write ∈ echoAll (Frame.join (parts.map (·.frame))).blocks x ↔
      ∃ part ∈ parts, write ∈ echoAll part.frame.blocks x := by
  simp only [echoAll_eq_flatMap]
  exact Frame.mem_flatMap_join

theorem echo_ofElement (inner : Program) (path : Path) (x : Value) :
    ∃ items, (ofElement inner path).echo x = [(path, .array items)] := by
  unfold ofElement
  split
  · exact ⟨_, by rw [echo]⟩
  · exact ⟨_, by rw [echo]⟩

theorem tag_mem_echo_union {field : String} (hf : field ≠ "") :
    (path.child field, kind.own (x.tagAt path field))
      ∈ (discriminator kind options field path).echo x := by
  rw [echo_union hf]
  exact List.mem_cons_self ..

end Block

namespace Compiled

theorem below_echo (h : Compiled schema path frame) (hn : schema.wellNamed = true) :
    ∀ write ∈ Block.echoAll frame.blocks x, path <+: write.1 := by
  have hw := h.wellLaid_plain hn
  intro write hmem
  obtain ⟨block, hb, hmem⟩ := Block.mem_echoAll.mp hmem
  exact (hw.below block hb).trans ((hw.laid block hb).below_echo write hmem)

theorem traces_iff (h : Compiled schema path frame) (hn : schema.wellNamed = true) (x : Value) :
    schema.traces (x.lookup path) = true ↔ ∃ write, write ∈ Block.echoAll frame.blocks x := by
  induction h with
  | leaf hk =>
    simp only [Schema.traces_leaf hk, true_iff]
    exact ⟨_, Block.mem_echoAll_singleton.mpr (List.mem_singleton_self _)⟩
  | object hparts ih =>
    rename_i path parts
    have hfields := (Schema.wellNamed_fields.mp hn).2
    rw [Schema.traces_object]
    constructor
    · rintro ⟨field, hf, ht⟩
      obtain ⟨part, hp, rfl⟩ := List.mem_map.mp hf
      rw [← Value.lookup_child] at ht
      obtain ⟨write, hw⟩ := (ih part hp (hfields part hp)).mp ht
      exact ⟨write, Block.mem_echoAll_join.mpr ⟨part, hp, hw⟩⟩
    · rintro ⟨write, hw⟩
      obtain ⟨part, hp, hw⟩ := Block.mem_echoAll_join.mp hw
      have hf := List.mem_map_of_mem (f := FieldFrame.field) hp
      refine ⟨_, hf, ?_⟩
      rw [← Value.lookup_child]
      exact (ih part hp (hfields part hp)).mpr ⟨write, hw⟩
  | union _ _ hb =>
    obtain ⟨tagClass, -, rfl⟩ := ofMembers_ok hb
    simp only [Schema.traces, true_iff]
    exact ⟨_, Block.mem_echoAll_singleton.mpr
      (Block.tag_mem_echo_union (Schema.wellNamed_union.mp hn).1)⟩
  | array =>
    obtain ⟨items, hecho⟩ := Block.echo_ofElement _ _ x
    simp only [Schema.traces, true_iff]
    exact ⟨_, Block.mem_echoAll_singleton.mpr (hecho ▸ List.mem_cons_self ..)⟩
  | slot hi h ih =>
    rename_i path frame schema inner
    rw [Schema.wellNamed_slot hi] at hn
    simp only [Frame.blocks_trail, Block.mem_echoAll_singleton]
    rcases slot_cases (x.lookup path) with hx | hx | ⟨v, hx, hv⟩
    · simp [hx, Schema.traces_slot_absent hi, Block.echo_ofSlot_absent hx]
    · simp [hx, Schema.traces_slot_null hi, Block.echo_ofSlot_null hx]
    · rw [Block.echo_ofSlot_present hx hv, hx, Schema.traces_slot_present hi hv, ← hx]
      exact ih hn
  | refined ha _ ih =>
    rw [Schema.wellNamed_refined ha] at hn
    rw [Schema.traces, ha, Bool.false_or]
    exact ih hn

/-- What a present slot leaves tells it present exactly when its schema shows. -/
theorem shows_iff (h : Compiled schema path frame) (hn : schema.wellNamed = true)
    (hw : Block.emitAll frame.blocks x = .ofBytes written) (hx : x.lookup path = some v)
    (hv : v ≠ .null) : schema.shows v = true ↔
      ∃ write ∈ Block.echoAll frame.blocks x, write ≠ (path, .null) := by
  induction h generalizing written with
  | leaf hk =>
    rename_i schema kind path
    rw [Frame.blocks_trail, Block.emitAll_singleton, Block.emit_primitive_ok] at hw
    rw [Schema.shows_leaf hk]
    simp only [Frame.blocks_trail, Block.mem_echoAll_singleton, Block.echo,
      List.mem_singleton, exists_eq_left]
    refine ⟨fun hne hnull => Kind.canonical?_ne_null hne (Kind.canonical?_own hw)
      (Prod.mk.inj hnull).2, ?_⟩
    rintro hne rfl
    exact hne rfl
  | object hparts _ =>
    rename_i path parts
    have hfields := (Schema.wellNamed_fields.mp hn).2
    have htraces := (Compiled.object hparts).traces_iff hn x
    rw [hx] at htraces
    refine htraces.trans ⟨?_, Exists.imp fun _ hw => hw.1⟩
    rintro ⟨write, hw⟩
    obtain ⟨part, hp, hmem⟩ := Block.mem_echoAll_join.mp hw
    have hbelow := (hparts part hp).below_echo (hfields part hp) write hmem
    exact ⟨write, hw, fun h => Path.not_child_below _ _ (h ▸ hbelow)⟩
  | union _ _ hb =>
    obtain ⟨tagClass, -, rfl⟩ := ofMembers_ok hb
    simp only [Schema.shows, true_iff]
    exact ⟨_, Block.mem_echoAll_singleton.mpr
      (Block.tag_mem_echo_union (Schema.wellNamed_union.mp hn).1),
      fun h => Path.child_ne_self _ _ (Prod.mk.inj h).1⟩
  | array =>
    obtain ⟨items, hecho⟩ := Block.echo_ofElement _ _ x
    simp only [Schema.shows, true_iff]
    exact ⟨_, Block.mem_echoAll_singleton.mpr (hecho ▸ List.mem_cons_self ..), by simp⟩
  | slot hi _ ih =>
    rw [Frame.blocks_trail, Block.emitAll_singleton, Block.emit_ofSlot_present hx hv] at hw
    obtain ⟨head, tail, -, htail, -⟩ := Emission.append_eq_ofBytes.mp hw
    rw [Schema.wellNamed_slot hi] at hn
    rw [Schema.shows_slot hi]
    simp only [Frame.blocks_trail, Block.mem_echoAll_singleton,
      Block.echo_ofSlot_present hx hv]
    exact ih hn htail hx
  | refined ha _ ih =>
    rw [Schema.wellNamed_refined ha] at hn
    rw [Schema.shows, ha, Bool.false_or]
    exact ih hn hw hx

end Compiled

end Positional
