import Positional.Proofs.Program.Echo

/-!
# Reading what a program wrote

Every block of a well-laid program, run over the bytes it wrote for a document, assigns the echo of
the document and stops right behind the bytes. The option of a union is chosen by the tag in the
document on one side and by the tag read back on the other; settled tags make it the same.
-/

namespace Positional

namespace Reader

theorem returns_throw (error : Error) (hf : ¬ fits) :
    Returns fits (throw error : Reader α) written value :=
  Returns.of_error hf fun pos rest => ⟨error, ⟨pos, written ++ rest⟩, rfl⟩

theorem returns_elementCount (limits : Limits) (count : Nat) :
    Returns (limits.Admits count) (elementCount limits) (Wire.varint count) count := by
  by_cases h : count < UInt64.size
  · have hcount : (UInt64.ofNat count).toNat = count := by
      rw [UInt64.toNat_ofNat']
      exact Nat.mod_eq_of_lt h
    by_cases hlimit : count ≤ limits.arrayElements
    · refine ((returns_varint h).bind_nil ?_).mono fun _ => trivial
      simp only [hcount, if_neg (Nat.not_lt.mpr hlimit)]
      exact Returns.pure count
    · intro pos rest
      refine .inr ⟨fun hf => hlimit hf.1, .arrayTooLarge count limits.arrayElements,
        ⟨pos + (Wire.varint count).length, rest⟩, ?_⟩
      rcases returns_varint h pos rest with hrun | ⟨hn, -⟩
      · rw [elementCount, run_bind_ok hrun]
        simp only [hcount, if_pos (Nat.lt_of_not_le hlimit)]
        rfl
      · exact absurd trivial hn
  · refine Returns.of_error (fun hf => h hf.2) fun pos rest => ?_
    obtain ⟨error, after, herr⟩ := varint_overflow (Nat.le_of_not_lt h) pos rest
    exact ⟨error, after, run_bind_error herr⟩

theorem returns_elements (h : emitElements kind path items = .ofBytes written) :
    Returns (written.length < UInt64.size) (elements kind items.length) written
      (items.map kind.own) := by
  by_cases hk : kind = .boolean
  · subst hk
    obtain ⟨flags, rfl, rfl⟩ := Block.emitElements_boolean_ok.mp h
    have hown : (flags.map Value.bool).map Kind.boolean.own = flags.map .bool := by
      rw [List.map_map]
      rfl
    rw [List.length_map, hown]
    refine ((returns_packedFlags flags).map (List.map Value.bool)).mono fun hlen => ?_
    rw [Wire.lengthPrefixed, List.length_append] at hlen
    omega
  · have htimes : elements kind items.length = timesAfter kind.read [] items.length := by
      cases kind with
      | boolean => exact absurd rfl hk
      | _ => rfl
    have hall := (Block.emitElements_ok hk).mp h
    have hitem : ∀ item ∈ items, ∀ bytes, kind.emit [] item = .ofBytes bytes →
        Returns (True ∧ bytes.length < UInt64.size) kind.read bytes (kind.own item) := by
      intro item _ bytes hbytes
      have henc := Kind.emit_eq_ofBytes.mp hbytes
      exact (Kind.returns_read (Kind.canonical?_canonical (Kind.canonical?_own henc))
        (Kind.encode?_own henc)).mono And.right
    rw [htimes]
    exact (Returns.timesAfter [] hitem hall).mono fun hlen => ⟨fun _ _ => trivial, hlen⟩

end Reader

namespace Block

variable {path : Path} {x : Value}

theorem returns_readAll (hw : emitAll blocks x = .ofBytes written)
    (h : ∀ block ∈ blocks, ∀ bytes, block.emit x = .ofBytes bytes →
      Reader.Returns (bytes.length < UInt64.size ∧ block.Within limits depth x)
        (block.read limits depth) bytes (block.echo x)) :
    Reader.Returns (written.length < UInt64.size ∧ WithinAll limits blocks depth x)
      (readAll limits blocks depth) written (echoAll blocks x) := by
  induction blocks generalizing written with
  | nil =>
    cases hw
    exact (Reader.Returns.pure []).mono fun _ => trivial
  | cons block rest ih =>
    obtain ⟨first, others, hfirst, hothers, rfl⟩ := emitAll_cons_ok.mp hw
    have hblock := h block (List.mem_cons_self ..) first hfirst
    have hrest := ih hothers fun b hb => h b (List.mem_cons_of_mem _ hb)
    refine (hblock.bind (hrest.map (block.echo x ++ ·))).mono ?_
    rintro ⟨hlen, hwithin, hwithins⟩
    rw [List.length_append] at hlen
    exact ⟨⟨by omega, hwithin⟩, by omega, hwithins⟩

/-- The reader takes the option that the writer took when the tag read back matches the same tags. -/
theorem returns_readOption (hw : emitOption options tag x = .ofBytes written)
    (ht : ∀ option ∈ options, option.1.matchesValue tag' = option.1.matchesValue tag)
    (h : ∀ option ∈ options, ∀ bytes, emitAll option.2 x = .ofBytes bytes →
      Reader.Returns (bytes.length < UInt64.size ∧ WithinAll limits option.2 depth x)
        (readAll limits option.2 depth) bytes (echoAll option.2 x)) :
    Reader.Returns (written.length < UInt64.size ∧ WithinOption limits options tag depth x)
      (readOption limits options tag' depth) written (echoOption options tag x) := by
  induction options with
  | nil =>
    cases hw
    exact (Reader.Returns.pure []).mono fun _ => trivial
  | cons option rest ih =>
    have hoption := h option (List.mem_cons_self ..)
    have hrest := fun hw => ih hw (fun o ho => ht o (List.mem_cons_of_mem _ ho))
      fun o ho => h o (List.mem_cons_of_mem _ ho)
    have htag := ht option (List.mem_cons_self ..)
    by_cases hm : option.1.matchesValue tag = true
    · simp only [emitOption, echoOption, WithinOption, readOption, htag, hm, if_true] at hw ⊢
      exact hoption written hw
    · simp only [emitOption, echoOption, WithinOption, readOption, htag, hm] at hw ⊢
      exact hrest hw

theorem returns_read_discriminator {field : String}
    (hw : (discriminator kind options field path).emit x = .ofBytes written)
    (ht : ∀ option ∈ options, option.1.matchesValue (kind.own (x.tagAt path field))
      = option.1.matchesValue (x.tagAt path field))
    (h : ∀ option ∈ options, ∀ bytes, emitAll option.2 x = .ofBytes bytes →
      Reader.Returns (bytes.length < UInt64.size ∧ WithinAll limits option.2 depth x)
        (readAll limits option.2 depth) bytes (echoAll option.2 x)) :
    let block := discriminator kind options field path
    Reader.Returns (written.length < UInt64.size ∧ block.Within limits depth x)
      (block.read limits depth) written (block.echo x) := by
  obtain ⟨-, head, tail, hhead, htail, rfl⟩ := emit_discriminator_ok.mp hw
  have htag := Kind.returns_read (Kind.canonical?_canonical (Kind.canonical?_own hhead))
    (Kind.encode?_own hhead)
  have hbody := returns_readOption htail ht h
  refine (htag.bind (hbody.map (tagWrites path field (kind.own (x.tagAt path field)) ++ ·))).mono ?_
  rintro ⟨hlen, hwithin⟩
  rw [List.length_append] at hlen
  exact ⟨by omega, by omega, hwithin⟩

theorem returns_read_primitive (hw : (primitive kind path).emit x = .ofBytes written) :
    Reader.Returns (written.length < UInt64.size ∧ (primitive kind path).Within limits depth x)
      ((primitive kind path).read limits depth) written ((primitive kind path).echo x) := by
  have henc := emit_primitive_ok.mp hw
  have hread := Kind.returns_read (Kind.canonical?_canonical (Kind.canonical?_own henc))
    (Kind.encode?_own henc)
  exact (hread.map fun value => [(path, value)]).mono And.left

theorem returns_read_flat {inner : Program} (hw : (array (.scalar kind) inner path).emit x = .ofBytes written) :
    let block := array (.scalar kind) inner path
    Reader.Returns (written.length < UInt64.size ∧ block.Within limits depth x)
      (block.read limits depth) written (block.echo x) := by
  obtain ⟨hk, items, tail, hx, rfl, htail⟩ := emit_array_ok.mp hw
  have hcount := Reader.returns_elementCount limits items.length
  have helements := Reader.returns_elements htail
  have hcheck : kind.check = .ok () := hk
  intro block
  simp only [block, read, echo, Within, hcheck, Value.held_of_lookup hx, Value.items_array]
  refine (hcount.bind (helements.map fun found => [(path, Value.array found)])).mono ?_
  rintro ⟨hlen, hadmits⟩
  rw [List.length_append] at hlen
  exact ⟨hadmits, by omega⟩

theorem returns_read_records {inner : Program} (hw : (array .object inner path).emit x = .ofBytes written)
    (h : ∀ item bytes, emitAll inner item = .ofBytes bytes →
      Reader.Returns (bytes.length < UInt64.size ∧ WithinAll limits inner (depth + 1) item)
        (readAll limits inner (depth + 1)) bytes (echoAll inner item)) :
    let block := array .object inner path
    Reader.Returns (written.length < UInt64.size ∧ block.Within limits depth x)
      (block.read limits depth) written (block.echo x) := by
  obtain ⟨-, items, tail, hx, rfl, htail⟩ := emit_array_ok.mp hw
  have hcount := Reader.returns_elementCount limits items.length
  intro block
  simp only [block, read, echo, Within, Value.held_of_lookup hx, Value.items_array]
  by_cases hdepth : limits.depth < depth + 1
  · have hthrow : Reader.Returns (depth + 1 ≤ limits.depth) (throw (.depthExceeded limits.depth)) tail
        [(path, Value.array (items.map fun item => .ofWrites (echoAll inner item)))] :=
      Reader.returns_throw _ (Nat.not_le.mpr hdepth)
    simp only [if_pos hdepth]
    refine (hcount.bind hthrow).mono ?_
    rintro ⟨-, hadmits, hle, -⟩
    exact ⟨hadmits, hle⟩
  · have hitem : ∀ item ∈ items, ∀ bytes, emitAll inner item = .ofBytes bytes →
        Reader.Returns (WithinAll limits inner (depth + 1) item ∧ bytes.length < UInt64.size)
          (Value.ofWrites <$> readAll limits inner (depth + 1)) bytes
          (.ofWrites (echoAll inner item)) := by
      intro item _ bytes hbytes
      rw [← bind_pure_comp]
      exact ((h item bytes hbytes).map Value.ofWrites).mono And.symm
    have hall := Reader.Returns.timesAfter [] hitem htail
    simp only [if_neg hdepth]
    refine (hcount.bind (hall.map fun found => [(path, Value.array found)])).mono ?_
    rintro ⟨hlen, hadmits, -, hwithin⟩
    rw [List.length_append] at hlen
    exact ⟨hadmits, hwithin, by omega⟩

end Block

/-- Reading back what a block wrote assigns the echo of the document. -/
theorem Laid.returns_read (h : Laid rule block) (hw : block.emit x = .ofBytes written) :
    Reader.Returns (written.length < UInt64.size ∧ block.Within limits depth x)
      (block.read limits depth) written (block.echo x) := by
  induction h generalizing x written depth with
  | primitive => exact Block.returns_read_primitive hw
  | flat => exact Block.returns_read_flat hw
  | records _ _ ih =>
    exact Block.returns_read_records hw fun item bytes hbytes =>
      Block.returns_readAll hbytes fun block hblock bytes hb => ih block hblock hb
  | slot _ _ _ _ ih =>
    refine Block.returns_read_discriminator hw (fun option _ =>
      congrArg option.1.matchesValue (Block.own_uint _)) fun option ho bytes hbytes =>
      Block.returns_readAll hbytes (forall_options_ofSlot
        (fun _ => Block.returns_read_primitive) (fun block hblock _ hb => ih block hblock hb) option ho)
  | union _ ht _ _ _ _ ih =>
    obtain ⟨-, head, tail, hhead, -, -⟩ := Block.emit_discriminator_ok.mp hw
    have htag := fun option ho => ht option ho _ _ (Kind.canonical?_own hhead)
    exact Block.returns_read_discriminator hw htag fun option ho bytes hbytes =>
      Block.returns_readAll hbytes fun block hblock bytes hb => ih option ho block hblock hb

theorem Laid.returns_readAll (h : ∀ block ∈ blocks, Laid rule block)
    (hw : Block.emitAll blocks x = .ofBytes written) :
    Reader.Returns (written.length < UInt64.size ∧ Block.WithinAll limits blocks depth x)
      (Block.readAll limits blocks depth) written (Block.echoAll blocks x) :=
  Block.returns_readAll hw fun block hb _ hbytes => (h block hb).returns_read hbytes

end Positional
