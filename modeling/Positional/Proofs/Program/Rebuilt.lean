import Positional.Proofs.Program.Echo

/-!
# Writing the echo

A well-laid program writes the same bytes for a document and for the echo of it, put down where
nothing was before, as long as no slot that is present wraps blocks whose echo is empty or a mere
null at the slot itself.
-/

namespace Positional

open Value (Blank)

/-- What a slot wraps gives back more than a null at the slot whenever the slot is present. -/
def Anchored (path : Path) (wrapped : Program) : Prop :=
  ∀ x written v, Block.emitAll wrapped x = .ofBytes written → x.lookup path = some v → v ≠ .null →
    ∃ write ∈ Block.echoAll wrapped x, write ≠ (path, .null)

/-- A block writes the same bytes for a document and for its echo, put down where nothing was. -/
def Block.Rebuilds (block : Block) (x : Value) : Prop :=
  ∀ r written, Blank r block.path → block.emit x = .ofBytes written →
    block.emit (r.assignAll (block.echo x)) = .ofBytes written

theorem Emission.concat_map_of {items : List α} {f : α → Emission} {g : β → Emission} {h : α → β}
    (hw : concat (items.map f) = .ofBytes written)
    (hf : ∀ item ∈ items, ∀ bytes, f item = .ofBytes bytes → g (h item) = .ofBytes bytes) :
    concat ((items.map h).map g) = .ofBytes written := by
  induction items generalizing written with
  | nil => exact hw
  | cons item items ih =>
    obtain ⟨a, b, ha, hb, rfl⟩ := concat_cons_eq_ofBytes.mp hw
    exact concat_cons_eq_ofBytes.mpr ⟨a, b, hf item (List.mem_cons_self ..) a ha,
      ih hb fun i hi => hf i (List.mem_cons_of_mem _ hi), rfl⟩

theorem emitElements_own (hw : emitElements kind path items = .ofBytes written) :
    emitElements kind path (items.map kind.own) = .ofBytes written := by
  by_cases hk : kind = .boolean
  · subst hk
    obtain ⟨flags, rfl, rfl⟩ := Block.emitElements_boolean_ok.mp hw
    refine Block.emitElements_boolean_ok.mpr ⟨flags, ?_, rfl⟩
    rw [List.map_map]
    rfl
  · have hall := (Block.emitElements_ok hk).mp hw
    refine (Block.emitElements_ok hk).mpr (Emission.concat_map_of hall fun item _ bytes hitem => ?_)
    exact Kind.emit_eq_ofBytes.mpr (Kind.encode?_own (Kind.emit_eq_ofBytes.mp hitem))

namespace Block

variable {path : Path} {x r : Value} {inner wrapped : Program}

/-- The echo of one block is not disturbed by those of the others in its frame. -/
theorem emitAll_rebuilt (hs : Spread blocks) (hr : ∀ block ∈ blocks, Blank r block.path)
    (hw : emitAll blocks x = .ofBytes written) (hl : ∀ block ∈ blocks, Laid rule block)
    (h : ∀ block ∈ blocks, block.Rebuilds x) :
    emitAll blocks (r.assignAll (echoAll blocks x)) = .ofBytes written := by
  induction blocks generalizing r written with
  | nil => exact hw
  | cons block rest ih =>
    obtain ⟨first, others, hfirst, hothers, rfl⟩ := emitAll_cons_ok.mp hw
    obtain ⟨happ, hspread⟩ := List.pairwise_cons.mp hs
    have hlaid := hl block (List.mem_cons_self ..)
    have hlaids := fun b hb => hl b (List.mem_cons_of_mem _ hb)
    -- what the others assign is apart from this block
    have hblock : (r.assignAll (echoAll (block :: rest) x)).lookup block.path
        = (r.assignAll (block.echo x)).lookup block.path := by
      rw [echoAll, Value.assignAll_append]
      refine Value.lookup_assignAll_of_apart _ fun write hwrite => ?_
      obtain ⟨b, hb, hwrite⟩ := mem_echoAll.mp hwrite
      exact (happ b hb).symm.below ((hlaids b hb).below_echo write hwrite)
    -- what this block assigns leaves the places of the others blank
    have hblank : ∀ b ∈ rest, Blank (r.assignAll (block.echo x)) b.path := fun b hb =>
      (hr b (List.mem_cons_of_mem _ hb)).assignAll fun write hwrite =>
        (happ b hb).below (hlaid.below_echo write hwrite)
    have hrest := ih hspread hblank hothers hlaids fun b hb => h b (List.mem_cons_of_mem _ hb)
    refine emitAll_cons_ok.mpr ⟨first, others, ?_, ?_, rfl⟩
    · rw [hlaid.emit_congr hblock]
      exact h block (List.mem_cons_self ..) r first (hr block (List.mem_cons_self ..)) hfirst
    · rw [echoAll, Value.assignAll_append]
      exact hrest

theorem emitOption_rebuilt (hw : emitOption options tag x = .ofBytes written)
    (ht : ∀ option ∈ options, option.1.matchesValue tag' = option.1.matchesValue tag)
    (h : ∀ option ∈ options, ∀ bytes, emitAll option.2 x = .ofBytes bytes →
      emitAll option.2 (r.assignAll (echoAll option.2 x)) = .ofBytes bytes) :
    emitOption options tag' (r.assignAll (echoOption options tag x)) = .ofBytes written := by
  induction options with
  | nil => exact hw
  | cons option rest ih =>
    have htag := ht option (List.mem_cons_self ..)
    by_cases hm : option.1.matchesValue tag = true
    · simp only [emitOption, echoOption, htag, hm, if_true] at hw ⊢
      exact h option (List.mem_cons_self ..) written hw
    · simp only [emitOption, echoOption, htag, hm] at hw ⊢
      exact ih hw (fun o ho => ht o (List.mem_cons_of_mem _ ho))
        fun o ho => h o (List.mem_cons_of_mem _ ho)

theorem rebuilds_primitive : (primitive kind path).Rebuilds x := by
  intro r written _ hw
  have hlookup : (r.assignAll ((primitive kind path).echo x)).lookup path
      = some (kind.own (x.held path)) := Value.lookup_assign ..
  rw [emit_primitive_ok, Value.held_of_lookup hlookup]
  exact Kind.encode?_own (emit_primitive_ok.mp hw)

theorem rebuilds_flat : (array (.scalar kind) inner path).Rebuilds x := by
  intro r written _ hw
  obtain ⟨hk, items, tail, hx, rfl, htail⟩ := emit_array_ok.mp hw
  have hlookup : (r.assignAll ((array (.scalar kind) inner path).echo x)).lookup path
      = some (.array (items.map kind.own)) := by
    rw [echo, Value.held_of_lookup hx]
    exact Value.lookup_assign ..
  exact emit_array_ok.mpr ⟨hk, items.map kind.own, tail, hlookup, by rw [List.length_map],
    emitElements_own htail⟩

theorem rebuilds_records (hl : ∀ block ∈ inner, Laid rule block) (hs : Spread inner)
    (h : ∀ block ∈ inner, ∀ item, block.Rebuilds item) :
    (array .object inner path).Rebuilds x := by
  intro r written _ hw
  obtain ⟨hk, items, tail, hx, rfl, htail⟩ := emit_array_ok.mp hw
  have hlookup : (r.assignAll ((array .object inner path).echo x)).lookup path
      = some (.array (items.map fun item => .ofWrites (echoAll inner item))) := by
    rw [echo, Value.held_of_lookup hx]
    exact Value.lookup_assign ..
  refine emit_array_ok.mpr ⟨hk, _, tail, hlookup, by rw [List.length_map], ?_⟩
  refine Emission.concat_map_of htail fun item _ bytes hitem => ?_
  exact emitAll_rebuilt hs (fun block _ => Value.blank_empty _) hitem hl
    fun block hb => h block hb item

theorem rebuilds_slot (hl : ∀ block ∈ wrapped, Laid rule block) (hb : Below path wrapped)
    (hs : Spread wrapped) (hanchor : Anchored path wrapped)
    (h : ∀ block ∈ wrapped, block.Rebuilds x) : (ofSlot wrapped path).Rebuilds x := by
  intro r written hr hw
  rcases slot_cases (x.lookup path) with hx | hx | ⟨v, hx, hv⟩
  · have hy : r.lookup path = none := by
      refine hr path List.prefix_rfl ?_
      rintro rfl
      cases hx
    rw [echo_ofSlot_absent hx, ← hw, emit_ofSlot_absent hx]
    exact emit_ofSlot_absent hy
  · rw [echo_ofSlot_null hx, ← hw, emit_ofSlot_null hx]
    exact emit_ofSlot_null (Value.lookup_assign ..)
  · rw [emit_ofSlot_present hx hv] at hw
    obtain ⟨head, tail, hhead, htail, rfl⟩ := Emission.append_eq_ofBytes.mp hw
    -- what the slot wraps makes it present again
    obtain ⟨write, hwrite, hne⟩ := hanchor x tail v htail hx hv
    obtain ⟨block, hblock, hmem⟩ := mem_echoAll.mp hwrite
    have hbelow := (hb block hblock).trans ((hl block hblock).below_echo write hmem)
    obtain ⟨u, hu, hunull⟩ := Value.present_of_write r (spread_echoAll hl hs) hwrite hbelow hne
    rw [echo_ofSlot_present hx hv, emit_ofSlot_present hu hunull, hhead,
      emitAll_rebuilt hs (fun b hmem => hr.below (hb b hmem)) htail hl h]
    rfl

theorem rebuilds_union {options : List (Tag × Program)}
    (hf : field ≠ "") (ht : ∀ option ∈ options, kind.Settles option.1)
    (hl : ∀ option ∈ options, ∀ block ∈ option.2, Laid rule block)
    (hb : ∀ option ∈ options, Below path option.2)
    (ha : ∀ option ∈ options, ∀ block ∈ option.2, Path.Apart (path.child field) block.path)
    (hs : ∀ option ∈ options, Spread option.2)
    (h : ∀ option ∈ options, ∀ block ∈ option.2, block.Rebuilds x) :
    (discriminator kind options field path).Rebuilds x := by
  intro r written hr hw
  obtain ⟨hfound, head, tail, hhead, htail, rfl⟩ := emit_discriminator_ok.mp hw
  rw [echo_union hf]
  -- the tag stands apart from what the options assign
  have hlookup : (r.assignAll ((path.child field, kind.own (x.tagAt path field))
      :: echoOption options (x.tagAt path field) x)).lookup (path.child field)
      = some (kind.own (x.tagAt path field)) := by
    have hspread : ((discriminator kind options field path).echo x).Spread :=
      (Laid.union hf ht hl hb ha hs).spread_echo
    rw [echo_union hf] at hspread
    exact Value.lookup_assignAll_of_mem r hspread (List.mem_cons_self ..)
  have htag : Value.tagAt (r.assignAll ((path.child field, kind.own (x.tagAt path field))
      :: echoOption options (x.tagAt path field) x)) path field = kind.own (x.tagAt path field) := by
    rw [Value.tagAt_field _ path hf, Value.held_of_lookup hlookup]
  refine emit_discriminator_ok.mpr ⟨fun _ => by simp [hlookup], head, tail, ?_, ?_, rfl⟩
  · rw [htag]
    exact Kind.encode?_own hhead
  · rw [htag]
    refine emitOption_rebuilt htail (fun option ho => ht option ho _ _ (Kind.canonical?_own hhead))
      fun option ho bytes hbytes => ?_
    refine emitAll_rebuilt (hs option ho) (fun block hblock => ?_) hbytes (hl option ho) (h option ho)
    exact (hr.below (hb option ho block hblock)).assign (ha option ho block hblock)

end Block

/-- A well-laid block writes the same bytes for a document and for its echo. -/
theorem Laid.rebuilds (h : Laid Anchored block) (x : Value) : block.Rebuilds x := by
  induction h generalizing x with
  | primitive => exact Block.rebuilds_primitive
  | flat => exact Block.rebuilds_flat
  | records hl hs ih => exact Block.rebuilds_records hl hs ih
  | slot hl hb hs hanchor ih =>
    exact Block.rebuilds_slot hl hb hs hanchor fun block hblock => ih block hblock x
  | union hf ht hl hb ha hs ih =>
    exact Block.rebuilds_union hf ht hl hb ha hs
      fun option ho block hblock => ih option ho block hblock x

end Positional
