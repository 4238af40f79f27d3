import Positional.Proofs.Program.Echo

/-!
# What hostile bytes decode to

Whatever bytes a well-laid program accepts, the document that its assignments build is one that the
program writes, in no more bytes, and whose echo is those same assignments in the same order. A slot
at the root is the exception: the root is there even when the slot is absent.
-/

namespace Positional

open Value (Blank)

/-- No slot is the document itself. -/
def OffRoot (path : Path) (_ : Program) : Prop := path ≠ []

namespace Block

/-- The document is written within the room from one position to another, and the assignments are
its echo. -/
structure Normal (limits : Limits) (depth : Nat) (block : Block) (y : Value) (writes : Writes)
    (start stop : Nat) : Prop where
  echo : block.echo y = writes
  emit : ∃ written, block.emit y = .ofBytes written ∧ start + written.length ≤ stop
  within : block.Within limits depth y

structure NormalAll (limits : Limits) (depth : Nat) (blocks : Program) (y : Value) (writes : Writes)
    (start stop : Nat) : Prop where
  echo : echoAll blocks y = writes
  emit : ∃ written, emitAll blocks y = .ofBytes written ∧ start + written.length ≤ stop
  within : WithinAll limits blocks depth y

end Block

namespace Reader

theorem timesAfter_ok {reader : Reader α} (write : α → Emission) (good : α → Prop)
    (h : ∀ cursor item last, reader.run cursor = (.ok item, last) → good item ∧
      ∃ written, write item = .ofBytes written ∧ cursor.pos + written.length ≤ last.pos)
    (hrun : (timesAfter reader done count).run cursor = (.ok all, last)) :
    ∃ items written, all = done.reverse ++ items ∧ items.length = count ∧
      (∀ item ∈ items, good item) ∧ .concat (items.map write) = Emission.ofBytes written ∧
      cursor.pos + written.length ≤ last.pos := by
  obtain ⟨items, hall, hcount, hgoods, written, hwritten, hlens⟩ := timesAfter_induct
    (P := fun start stop items => (∀ item ∈ items, good item) ∧ ∃ written,
      .concat (items.map write) = Emission.ofBytes written ∧ start.pos + written.length ≤ stop.pos)
    (fun _ => ⟨by simp, [], rfl, Nat.le_refl _⟩)
    (fun hitem hrest => by
      obtain ⟨hgood, first, hfirst, hlen⟩ := h _ _ _ hitem
      obtain ⟨hgoods, others, hothers, hlens⟩ := hrest
      refine ⟨List.forall_mem_cons.mpr ⟨hgood, hgoods⟩, first ++ others, ?_, ?_⟩
      · exact Emission.concat_cons_eq_ofBytes.mpr ⟨first, others, hfirst, hothers, rfl⟩
      · rw [List.length_append]
        omega) hrun
  exact ⟨items, written, hall, hcount, hgoods, hwritten, hlens⟩

theorem elementCount_ok (h : (elementCount limits).run cursor = (.ok count, last)) :
    limits.Admits count ∧ cursor.pos + (Wire.varint count).length ≤ last.pos := by
  obtain ⟨n, mid, hn, h⟩ := bind_ok.mp h
  have hlen := covers_varint _ _ _ hn
  simp only at h
  split at h
  · exact absurd h throw_ok
  · rename_i hle
    obtain ⟨rfl, rfl⟩ := pure_ok.mp h
    exact ⟨⟨Nat.le_of_not_lt hle, n.toNat_lt⟩, hlen⟩

theorem elements_ok (path : Path) (h : (elements kind count).run cursor = (.ok items, last)) :
    items.length = count ∧ items.map kind.own = items ∧
      ∃ written, emitElements kind path items = .ofBytes written ∧
        cursor.pos + written.length ≤ last.pos := by
  by_cases hk : kind = .boolean
  · subst hk
    obtain ⟨flags, mid, hflags, h⟩ := bind_ok.mp h
    obtain ⟨rfl, rfl⟩ := pure_ok.mp h
    obtain ⟨rfl, hlen⟩ := packedFlags_ok hflags
    refine ⟨List.length_map .., ?_, _, Block.emitElements_boolean_ok.mpr ⟨flags, rfl, rfl⟩, hlen⟩
    rw [List.map_map]
    rfl
  · have htimes : elements kind count = timesAfter kind.read [] count := by
      cases kind with
      | boolean => exact absurd rfl hk
      | _ => rfl
    rw [htimes] at h
    obtain ⟨items, written, rfl, rfl, hown, hw, hlen⟩ := timesAfter_ok
      (kind.emit []) (fun item => kind.own item = item)
      (fun cursor item last hrun => by
        obtain ⟨hc, written, henc, hlen⟩ := Kind.read_ok hrun
        exact ⟨by rw [Kind.own, hc, Option.getD_some], written, Kind.emit_eq_ofBytes.mpr henc, hlen⟩) h
    refine ⟨rfl, ?_, written, (Block.emitElements_ok hk).mpr hw, hlen⟩
    exact (List.map_congr_left hown).trans (List.map_id items)

end Reader

namespace Block

variable {path : Path} {r : Value}

theorem read_primitive_ok
    (hrun : ((primitive kind path).read limits depth).run cursor = (.ok writes, last)) :
    (primitive kind path).Normal limits depth (r.assignAll writes) writes cursor.pos last.pos := by
  obtain ⟨value, mid, hvalue, h⟩ := Reader.bind_ok.mp hrun
  obtain ⟨rfl, rfl⟩ := Reader.pure_ok.mp h
  obtain ⟨hc, written, henc, hlen⟩ := Kind.read_ok hvalue
  have hlookup : (r.assignAll [(path, value)]).lookup path = some value := Value.lookup_assign ..
  refine ⟨?_, ⟨written, ?_, hlen⟩, trivial⟩
  · rw [echo, Value.held_of_lookup hlookup, Kind.own, hc, Option.getD_some]
  · rw [emit_primitive_ok, Value.held_of_lookup hlookup]
    exact henc

theorem read_flat_ok {inner : Program}
    (hrun : ((array (.scalar kind) inner path).read limits depth).run cursor = (.ok writes, last)) :
    (array (.scalar kind) inner path).Normal limits depth (r.assignAll writes) writes
      cursor.pos last.pos := by
  rw [read] at hrun
  cases hk : kind.check with
  | error error =>
    rw [hk] at hrun
    exact absurd hrun Reader.throw_ok
  | ok =>
    rw [hk] at hrun
    obtain ⟨_, start, hcheck, hrun⟩ := Reader.bind_ok.mp hrun
    obtain ⟨-, rfl⟩ := Reader.pure_ok.mp hcheck
    obtain ⟨count, mid, hcount, hrun⟩ := Reader.bind_ok.mp hrun
    obtain ⟨items, mid', hitems, hrun⟩ := Reader.bind_ok.mp hrun
    obtain ⟨rfl, rfl⟩ := Reader.pure_ok.mp hrun
    obtain ⟨hadmits, hlen⟩ := Reader.elementCount_ok hcount
    obtain ⟨rfl, hown, written, hw, hlen'⟩ := Reader.elements_ok path hitems
    have hlookup : (r.assignAll [(path, .array items)]).lookup path = some (.array items) :=
      Value.lookup_assign ..
    refine ⟨?_, ⟨_, emit_array_ok.mpr ⟨hk, items, written, hlookup, rfl, hw⟩, ?_⟩, ?_⟩
    · rw [echo, Value.held_of_lookup hlookup, Value.items_array, hown]
    · rw [List.length_append]
      omega
    · rw [Within, Value.held_of_lookup hlookup]
      exact hadmits

theorem read_records_ok {inner : Program}
    (h : ∀ cursor writes last, (readAll limits inner (depth + 1)).run cursor = (.ok writes, last) →
      NormalAll limits (depth + 1) inner (.ofWrites writes) writes cursor.pos last.pos)
    (hrun : ((array .object inner path).read limits depth).run cursor = (.ok writes, last)) :
    (array .object inner path).Normal limits depth (r.assignAll writes) writes
      cursor.pos last.pos := by
  rw [read] at hrun
  obtain ⟨count, mid, hcount, hrun⟩ := Reader.bind_ok.mp hrun
  obtain ⟨hadmits, hlen⟩ := Reader.elementCount_ok hcount
  split at hrun
  · exact absurd hrun Reader.throw_ok
  · rename_i hdepth
    obtain ⟨items, mid', hitems, hrun⟩ := Reader.bind_ok.mp hrun
    obtain ⟨rfl, rfl⟩ := Reader.pure_ok.mp hrun
    obtain ⟨items, written, rfl, rfl, hgood, hw, hlen'⟩ := Reader.timesAfter_ok
      (fun item => emitAll inner item)
      (fun item => .ofWrites (echoAll inner item) = item ∧ WithinAll limits inner (depth + 1) item)
      (fun cursor item last hitem => by
        obtain ⟨writes, hwrites, rfl⟩ := Reader.map_ok.mp hitem
        obtain ⟨hecho, hemit, hwithin⟩ := h _ _ _ hwrites
        exact ⟨⟨by rw [hecho], hwithin⟩, hemit⟩) hitems
    have hlookup : (r.assignAll [(path, .array items)]).lookup path = some (.array items) :=
      Value.lookup_assign ..
    refine ⟨?_, ⟨_, emit_array_ok.mpr ⟨rfl, items, written, hlookup, rfl, hw⟩, ?_⟩, ?_⟩
    · rw [echo, Value.held_of_lookup hlookup, Value.items_array]
      exact congrArg (fun found => [(path, Value.array found)])
        ((List.map_congr_left fun item hi => (hgood item hi).1).trans (List.map_id items))
    · rw [List.length_append]
      omega
    · rw [Within, Value.held_of_lookup hlookup]
      exact ⟨hadmits, Nat.le_of_not_lt hdepth, fun item hi => (hgood item hi).2⟩

/-- The assignments of the other blocks of a frame leave what one block assigned. -/
theorem readAll_ok (hs : Spread blocks) (hl : ∀ block ∈ blocks, Laid rule block)
    (h : ∀ block ∈ blocks, ∀ r cursor writes last, Blank r block.path →
      (block.read limits depth).run cursor = (.ok writes, last) →
      block.Normal limits depth (r.assignAll writes) writes cursor.pos last.pos)
    (hr : ∀ block ∈ blocks, Blank r block.path)
    (hrun : (readAll limits blocks depth).run cursor = (.ok writes, last)) :
    NormalAll limits depth blocks (r.assignAll writes) writes cursor.pos last.pos := by
  induction blocks generalizing r cursor writes with
  | nil =>
    obtain ⟨rfl, rfl⟩ := Reader.pure_ok.mp hrun
    exact ⟨rfl, ⟨[], rfl, Nat.le_refl _⟩, trivial⟩
  | cons block rest ih =>
    obtain ⟨first, mid, hfirst, hrun⟩ := Reader.bind_ok.mp hrun
    obtain ⟨others, mid', hothers, hrun⟩ := Reader.bind_ok.mp hrun
    obtain ⟨rfl, rfl⟩ := Reader.pure_ok.mp hrun
    obtain ⟨happ, hspread⟩ := List.pairwise_cons.mp hs
    have hlaid := hl block (List.mem_cons_self ..)
    have hlaids := fun b hb => hl b (List.mem_cons_of_mem _ hb)
    obtain ⟨hecho, ⟨a, ha, halen⟩, hwithin⟩ := h block (List.mem_cons_self ..) r _ _ _
      (hr block (List.mem_cons_self ..)) hfirst
    have hbelow : ∀ write ∈ first, block.path <+: write.1 := hecho ▸ hlaid.below_echo
    have hblank : ∀ b ∈ rest, Blank (r.assignAll first) b.path := fun b hb =>
      (hr b (List.mem_cons_of_mem _ hb)).assignAll fun write hw => (happ b hb).below (hbelow write hw)
    obtain ⟨hechoes, ⟨c, hc, hclen⟩, hwithins⟩ := ih hspread hlaids
      (fun b hb => h b (List.mem_cons_of_mem _ hb)) hblank hothers
    rw [← Value.assignAll_append] at hechoes hc hwithins
    have hlookup : (r.assignAll (first ++ others)).lookup block.path
        = (r.assignAll first).lookup block.path := by
      rw [Value.assignAll_append]
      refine Value.lookup_assignAll_of_apart _ fun write hw => ?_
      obtain ⟨b, hb, hw⟩ := mem_echoAll.mp (hechoes.symm ▸ hw)
      exact (happ b hb).symm.below ((hlaids b hb).below_echo write hw)
    refine ⟨?_, ⟨a ++ c, emitAll_cons_ok.mpr ⟨a, c, ?_, hc, rfl⟩, ?_⟩, ?_, hwithins⟩
    · rw [echoAll, hechoes, hlaid.echo_congr hlookup, hecho]
    · rw [hlaid.emit_congr hlookup, ha]
    · rw [List.length_append]
      omega
    · exact (hlaid.within_congr hlookup).mpr hwithin

theorem readOption_ok
    (h : ∀ option ∈ options, ∀ writes, (readAll limits option.2 depth).run cursor = (.ok writes, last) →
      NormalAll limits depth option.2 (r.assignAll writes) writes cursor.pos last.pos)
    (hrun : (readOption limits options tag depth).run cursor = (.ok writes, last)) :
    echoOption options tag (r.assignAll writes) = writes ∧
      (∃ written, emitOption options tag (r.assignAll writes) = .ofBytes written ∧
        cursor.pos + written.length ≤ last.pos) ∧
      WithinOption limits options tag depth (r.assignAll writes) := by
  induction options with
  | nil =>
    obtain ⟨rfl, rfl⟩ := Reader.pure_ok.mp hrun
    exact ⟨rfl, ⟨[], rfl, Nat.le_refl _⟩, trivial⟩
  | cons option rest ih =>
    by_cases hm : option.1.matchesValue tag = true
    · simp only [readOption, echoOption, emitOption, WithinOption, hm, if_true] at hrun ⊢
      obtain ⟨hecho, hemit, hwithin⟩ := h option (List.mem_cons_self ..) writes hrun
      exact ⟨hecho, hemit, hwithin⟩
    · simp only [readOption, echoOption, emitOption, WithinOption, hm] at hrun ⊢
      exact ih (fun o ho => h o (List.mem_cons_of_mem _ ho)) hrun

/-- A slot reads its state. Only a present one has what it wraps; a state beyond null has nothing. -/
theorem read_ofSlot_ok
    (hrun : ((ofSlot wrapped path).read limits depth).run cursor = (.ok writes, last)) :
    ∃ mid, cursor.pos + 1 ≤ mid.pos ∧ ((readAll limits wrapped depth).run mid = (.ok writes, last) ∨
      mid = last ∧ (writes = [] ∨ writes = [(path, .null)])) := by
  obtain ⟨tag, mid, htag, hrun⟩ := Reader.bind_ok.mp hrun
  obtain ⟨body, mid', hbody, hrun⟩ := Reader.bind_ok.mp hrun
  obtain ⟨rfl, rfl⟩ := Reader.pure_ok.mp hrun
  have hlen : cursor.pos + 1 ≤ mid.pos := by
    obtain ⟨n, mid'', hn, htag⟩ := Reader.bind_ok.mp htag
    obtain ⟨-, rfl⟩ := Reader.pure_ok.mp htag
    have hle := Reader.covers_varint _ _ _ hn
    have hpos := Wire.length_varint_pos n.toNat
    simp only at hle
    omega
  refine ⟨mid, hlen, ?_⟩
  rw [readOption] at hbody
  split at hbody
  · obtain ⟨rfl, rfl⟩ := Reader.pure_ok.mp hbody
    exact .inr ⟨rfl, .inl rfl⟩
  · rw [readOption] at hbody
    split at hbody
    · exact .inl hbody
    · rw [readOption] at hbody
      split at hbody
      · obtain ⟨first, mid'', hfirst, hbody⟩ := Reader.bind_ok.mp hbody
        obtain ⟨_, _, hrest, hbody⟩ := Reader.bind_ok.mp hbody
        obtain ⟨rfl, rfl⟩ := Reader.pure_ok.mp hrest
        obtain ⟨rfl, rfl⟩ := Reader.pure_ok.mp hbody
        obtain ⟨rfl, rfl⟩ := Reader.pure_ok.mp hfirst
        exact .inr ⟨rfl, .inr rfl⟩
      · obtain ⟨rfl, rfl⟩ := Reader.pure_ok.mp hbody
        exact .inr ⟨rfl, .inl rfl⟩

/-- Assignments below a blank slot that leave a null there are the null alone. -/
theorem writes_of_null {writes : Writes} (hs : writes.Spread) (hb : ∀ write ∈ writes, path <+: write.1)
    (hr : r.lookup path = none) (h : (r.assignAll writes).lookup path = some .null) :
    writes = [(path, .null)] := by
  have hall : ∀ write ∈ writes, write = (path, .null) := by
    intro write hw
    refine Classical.byContradiction fun hne => ?_
    obtain ⟨found, hfound, hnull⟩ := Value.present_of_write r hs hw (hb write hw) hne
    exact hnull (Option.some.inj (hfound.symm.trans h))
  cases writes with
  | nil => cases hr.symm.trans h
  | cons first rest =>
    cases rest with
    | nil => rw [hall first (List.mem_cons_self ..)]
    | cons second rest =>
      have happ := (List.pairwise_cons.mp hs).1 second (List.mem_cons_self ..)
      rw [hall first (by simp), hall second (by simp)] at happ
      exact absurd List.prefix_rfl happ.1

theorem normal_absent (h : r.lookup path = none) (hlen : start + 1 ≤ stop) :
    (ofSlot wrapped path).Normal limits depth r [] start stop :=
  ⟨echo_ofSlot_absent h, ⟨_, emit_ofSlot_absent h, by rwa [Wire.varint_of_lt (by decide)]⟩,
    within_ofSlot_absent h⟩

theorem normal_null (h : r.lookup path = some .null) (hlen : start + 1 ≤ stop) :
    (ofSlot wrapped path).Normal limits depth r [(path, .null)] start stop :=
  ⟨echo_ofSlot_null h, ⟨_, emit_ofSlot_null h, by rwa [Wire.varint_of_lt (by decide)]⟩,
    within_ofSlot_null h⟩

theorem read_slot_ok (hl : ∀ block ∈ wrapped, Laid rule block) (hb : Below path wrapped)
    (hs : Spread wrapped) (hp : path ≠ []) (hr : Blank r path)
    (h : ∀ cursor, (readAll limits wrapped depth).run cursor = (.ok writes, last) →
      NormalAll limits depth wrapped (r.assignAll writes) writes cursor.pos last.pos)
    (hrun : ((ofSlot wrapped path).read limits depth).run cursor = (.ok writes, last)) :
    (ofSlot wrapped path).Normal limits depth (r.assignAll writes) writes cursor.pos last.pos := by
  have habsent : r.lookup path = none := hr path List.prefix_rfl hp
  obtain ⟨mid, hlen, hrun | ⟨rfl, rfl | rfl⟩⟩ := read_ofSlot_ok hrun
  · obtain ⟨hecho, ⟨written, hw, hlen'⟩, hwithin⟩ := h mid hrun
    have hbelow : ∀ write ∈ writes, path <+: write.1 := by
      intro write hmem
      obtain ⟨block, hblock, hmem⟩ := mem_echoAll.mp (hecho.symm ▸ hmem)
      exact (hb block hblock).trans ((hl block hblock).below_echo write hmem)
    have hspread : writes.Spread := hecho ▸ spread_echoAll hl hs
    rcases slot_cases ((r.assignAll writes).lookup path) with hy | hy | ⟨v, hy, hv⟩
    · have hnil : writes = [] := by
        refine List.eq_nil_iff_forall_not_mem.mpr fun write hmem => ?_
        have hkept := Value.lookup_assignAll_of_mem r hspread hmem
        cases hkept.symm.trans (Value.lookup_none_below hy (hbelow write hmem))
      subst hnil
      exact normal_absent hy (by omega)
    · have hnull := writes_of_null hspread hbelow habsent hy
      subst hnull
      exact normal_null hy (by omega)
    · refine ⟨(echo_ofSlot_present hy hv).trans hecho, ⟨Wire.varint 1 ++ written, ?_, ?_⟩,
        (within_ofSlot_present hy hv).mpr hwithin⟩
      · rw [emit_ofSlot_present hy hv, hw]
        rfl
      · rw [List.length_append, Wire.varint_of_lt (by decide), List.length_singleton]
        omega
  · exact normal_absent habsent hlen
  · exact normal_null (Value.lookup_assign ..) hlen

theorem read_union_ok {field : String} (hf : field ≠ "")
    (hbody : ∀ option ∈ options, ∀ r cursor writes, (∀ block ∈ option.2, Blank r block.path) →
      (readAll limits option.2 depth).run cursor = (.ok writes, last) →
      NormalAll limits depth option.2 (r.assignAll writes) writes cursor.pos last.pos)
    (ha : ∀ option ∈ options, ∀ block ∈ option.2, Path.Apart (path.child field) block.path)
    (hl : ∀ option ∈ options, ∀ block ∈ option.2, Laid rule block)
    (hr : ∀ option ∈ options, ∀ block ∈ option.2, Blank r block.path)
    (hrun : ((discriminator kind options field path).read limits depth).run cursor = (.ok writes, last)) :
    (discriminator kind options field path).Normal limits depth (r.assignAll writes) writes
      cursor.pos last.pos := by
  obtain ⟨tag, mid, htag, hrun⟩ := Reader.bind_ok.mp hrun
  obtain ⟨body, mid', hread, hrun⟩ := Reader.bind_ok.mp hrun
  obtain ⟨rfl, rfl⟩ := Reader.pure_ok.mp hrun
  obtain ⟨hc, head, hhead, hlen⟩ := Kind.read_ok htag
  have hown : kind.own tag = tag := by rw [Kind.own, hc, Option.getD_some]
  have hwrites : tagWrites path field tag = [(path.child field, tag)] := by
    rw [tagWrites, Value.tellsPresence_of_ne hf]
    rfl
  rw [hwrites, List.singleton_append]
  obtain ⟨hecho, ⟨tail, htail, hlen'⟩, hwithin⟩ := readOption_ok
    (r := Value.assign tag r (path.child field)) (fun option ho writes => hbody option ho _ _ _
      fun block hblock => (hr option ho block hblock).assign (ha option ho block hblock)) hread
  have hy : (r.assignAll ((path.child field, tag) :: body)).lookup (path.child field) = some tag := by
    refine (Value.lookup_assignAll_of_apart (Value.assign tag r (path.child field)) ?_).trans
      (Value.lookup_assign ..)
    rw [← hecho]
    refine echoOption_induct
      (motive := fun writes => ∀ write ∈ writes, Path.Apart write.1 (path.child field))
      (fun write hw => absurd hw List.not_mem_nil) fun option ho write hw => ?_
    obtain ⟨block, hblock, hw⟩ := mem_echoAll.mp hw
    exact (ha option ho block hblock).symm.below ((hl option ho block hblock).below_echo write hw)
  have htagAt : (r.assignAll ((path.child field, tag) :: body)).tagAt path field = tag := by
    rw [Value.tagAt_field _ path hf, Value.held_of_lookup hy]
  refine ⟨?_, ⟨head ++ tail, emit_discriminator_ok.mpr ⟨fun _ => by simp [hy], head, tail, ?_, ?_,
    rfl⟩, ?_⟩, ?_⟩
  · rw [echo, htagAt, hown, hwrites]
    exact congrArg ((path.child field, tag) :: ·) hecho
  · rw [htagAt]
    exact hhead
  · rw [htagAt]
    exact htail
  · rw [List.length_append]
    omega
  · rw [Within, htagAt]
    exact hwithin

end Block

/-- Whatever a block reads, the document it builds is written in no more bytes and has those very
assignments as its echo. -/
theorem Laid.read_ok (h : Laid OffRoot block) (hr : Blank r block.path)
    (hrun : (block.read limits depth).run cursor = (.ok writes, last)) :
    block.Normal limits depth (r.assignAll writes) writes cursor.pos last.pos := by
  induction h generalizing r cursor writes last depth with
  | primitive => exact Block.read_primitive_ok hrun
  | flat => exact Block.read_flat_ok hrun
  | records hl hs ih =>
    exact Block.read_records_ok (fun cursor writes last => Block.readAll_ok hs hl
      (fun block hb r cursor writes last hr hrun => ih block hb hr hrun)
      fun block _ => Value.blank_empty _) hrun
  | slot hl hb hs hp ih =>
    exact Block.read_slot_ok hl hb hs hp hr (fun cursor => Block.readAll_ok hs hl
      (fun block hblock r cursor writes last hr hrun => ih block hblock hr hrun)
      fun block hblock => hr.below (hb block hblock)) hrun
  | union hf ht hl hb ha hs ih =>
    exact Block.read_union_ok hf (fun option ho r cursor writes hr => Block.readAll_ok (hs option ho)
      (hl option ho) (fun block hblock r cursor writes last hr hrun => ih option ho block hblock hr hrun)
      hr) ha hl (fun option ho block hblock => hr.below (hb option ho block hblock)) hrun

theorem Laid.readAll_ok (h : ∀ block ∈ blocks, Laid OffRoot block) (hs : Spread blocks)
    (hr : ∀ block ∈ blocks, Blank r block.path)
    (hrun : (Block.readAll limits blocks depth).run cursor = (.ok writes, last)) :
    Block.NormalAll limits depth blocks (r.assignAll writes) writes cursor.pos last.pos :=
  Block.readAll_ok hs h (fun block hb _ _ _ _ hr hrun => (h block hb).read_ok hr hrun) hr hrun

end Positional
