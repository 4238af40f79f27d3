import Positional.Proofs.Codec.Canonical
import Positional.Proofs.Schema.Encodable
import Positional.Proofs.Schema.Fields

/-!
# Round trips by content

A document that conforms to its schema can be written, and what is read back has the same content:
field order aside, and with numbers, dates and bytes in the variant of their kind.
-/

namespace Positional

open Value (Reflects Tidy SameSlot)

-- ---------------------------------------------------------------------------
-- Assigned values are no objects
-- ---------------------------------------------------------------------------

theorem Kind.own_ne_object (kind : Kind) (value : Value) (fields : List (String × Value)) :
    kind.own value ≠ .object fields := by
  intro h
  cases hc : kind.canonical? value with
  | none =>
    rw [own, hc] at h
    cases h
  | some found =>
    rw [own, hc, Option.getD_some] at h
    subst h
    have hself := canonical?_canonical hc
    cases kind <;> cases hself

theorem Kind.tidy_own (kind : Kind) (value : Value) : Tidy (kind.own value) :=
  .of_not_object (kind.own_ne_object value)

theorem Laid.tidy_echo (h : Laid rule block) : ∀ write ∈ block.echo x, Tidy write.2 := by
  have harray : ∀ {path : Path} {items : List Value}, ∀ write ∈ [(path, Value.array items)],
      Tidy write.2 := by
    intro path items write hw
    rw [List.mem_singleton.mp hw]
    exact .of_not_object (by simp)
  have hbody : ∀ {options : List (Tag × Program)} {tag : Value}, (∀ option ∈ options, ∀ block ∈ option.2,
      ∀ write ∈ block.echo x, Tidy write.2) → ∀ write ∈ Block.echoOption options tag x, Tidy write.2 := by
    intro options tag h
    refine Block.echoOption_induct (motive := fun writes => ∀ write ∈ writes, Tidy write.2)
      (fun write hw => absurd hw List.not_mem_nil) fun option ho write hw => ?_
    obtain ⟨block, hb, hw⟩ := Block.mem_echoAll.mp hw
    exact h option ho block hb write hw
  induction h with
  | primitive =>
    intro write hw
    rw [Block.echo] at hw
    rw [List.mem_singleton.mp hw]
    exact Kind.tidy_own _ _
  | flat =>
    rw [Block.echo]
    exact harray
  | records =>
    rw [Block.echo]
    exact harray
  | slot hl hb hs hr ih =>
    rename_i wrapped path
    refine hbody (forall_options_ofSlot ?_ ih)
    intro write hw
    rw [Block.echo] at hw
    rw [List.mem_singleton.mp hw]
    exact Kind.tidy_own .null (x.held path)
  | union hf _ _ _ _ _ ih =>
    rw [Block.echo_union hf]
    exact List.forall_mem_cons.mpr ⟨Kind.tidy_own _ _, hbody ih⟩

theorem tidy_ofWrites_echoAll (h : ∀ block ∈ blocks, Laid rule block) :
    Tidy (.ofWrites (Block.echoAll blocks x)) := by
  refine Value.tidy_assignAll Value.tidy_empty fun write hw => ?_
  obtain ⟨block, hb, hw⟩ := Block.mem_echoAll.mp hw
  exact (h block hb).tidy_echo write hw

namespace Compiled

theorem echo_array (inner : Program) (path : Path) (hx : x.lookup path = some (.array items)) :
    (Block.ofElement inner path).echo x
      = [(path, .array (items.map fun item => .ofWrites (Block.echoAll inner item)))] := by
  unfold Block.ofElement
  split <;> rw [Block.echo, Value.held_of_lookup hx] <;> rfl

/-- An object of which something is assigned below, or which is a root, is an object again. -/
theorem object_again (h : Compiled schema path frame) (hn : schema.wellNamed = true)
    (hv : schema.Conforms root v) (hx : x.lookup path = some v)
    (hy : Reflects y path (Block.echoAll frame.blocks x))
    (hroot : root = true → Block.echoAll frame.blocks x = [] →
      ∃ ys, y.lookup path = some (.object ys))
    (hbelow : ∀ write ∈ Block.echoAll frame.blocks x, write.1 ≠ path) :
    ∃ ys, y.lookup path = some (.object ys) := by
  have hsome : ∀ write ∈ Block.echoAll frame.blocks x, ∃ ys, y.lookup path = some (.object ys) :=
    fun write hw => Value.object_of_lookup_below (hy.holds write hw) (h.below_echo hn write hw)
      (hbelow write hw)
  cases hecho : Block.echoAll frame.blocks x with
  | cons write rest => exact hsome write (hecho ▸ List.mem_cons_self ..)
  | nil =>
    cases root with
    | true => exact hroot rfl hecho
    | false =>
      obtain ⟨write, hw⟩ := (h.traces_iff hn x).mp (hx ▸ hv.traces)
      exact hsome write hw

theorem same_object_at (hy : y.lookup path = some (.object ys)) (ht : Tidy y)
    (hn : (values.map (·.1)).Nodup)
    (h : ∀ name, SameSlot (y.lookup (path.child name)) (values.lookup name)) :
    (Value.object ys).same (.object values) = true := by
  refine Value.same_object (ht path ys hy) hn fun name => ?_
  have hname := h name
  rwa [Value.lookup_child, hy] at hname

theorem sameSlot_field {part : FieldFrame} {values : List (String × Value)}
    (hc : Compiled part.schema (path.child part.name) part.frame)
    (hx : x.lookup path = some (.object values))
    (hy : Reflects y (path.child part.name) (Block.echoAll part.frame.blocks x))
    (ha : values.lookup part.name = none → part.schema.omittable = true)
    (h : ∀ v, values.lookup part.name = some v → x.lookup (path.child part.name) = some v →
      ∃ u, y.lookup (path.child part.name) = some u ∧ u.same v = true) :
    SameSlot (y.lookup (path.child part.name)) (values.lookup part.name) := by
  have hchild : x.lookup (path.child part.name) = values.lookup part.name := by
    rw [Value.lookup_child, hx]
    rfl
  cases hl : values.lookup part.name with
  | none =>
    rw [hc.echo_omitted (ha hl) (hchild.trans hl)] at hy
    rw [hy.absent List.prefix_rfl (Path.child_ne_nil _ _)]
    exact trivial
  | some v =>
    obtain ⟨u, hu, hsame⟩ := h v hl (hchild.trans hl)
    rw [hu]
    exact hsame

/-- A name has the same content when its field, if there is one, brings it about. -/
theorem sameSlot_named (x : Value) {parts : List FieldFrame} {writes : Writes}
    {values : List (String × Value)}
    (hpart : ∀ part ∈ parts, part.schema.wellNamed = true)
    (hparts : ∀ part ∈ parts, Compiled part.schema (path.child part.name) part.frame)
    (hy : Reflects y path writes) (hnames : (parts.map (·.name)).Nodup)
    (hd : values.lookup name ≠ none → name ∈ parts.map (·.name))
    (hin : ∀ part ∈ parts, part.name = name →
      ∀ write ∈ Block.echoAll part.frame.blocks x, write ∈ writes)
    (hout : ∀ write ∈ writes, Path.Apart write.1 (path.child name) ∨
      ∃ other ∈ parts, write ∈ Block.echoAll other.frame.blocks x)
    (h : ∀ part ∈ parts, part.name = name →
      Reflects y (path.child part.name) (Block.echoAll part.frame.blocks x) →
      SameSlot (y.lookup (path.child part.name)) (values.lookup part.name)) :
    SameSlot (y.lookup (path.child name)) (values.lookup name) := by
  by_cases hname : name ∈ parts.map (·.name)
  · obtain ⟨part, hp, rfl⟩ := List.mem_map.mp hname
    exact h part hp rfl (reflects_part hpart hparts hy hnames hp (hin part hp rfl) hout)
  · have hnone : values.lookup name = none :=
      Classical.byContradiction fun hsome => hname (hd hsome)
    rw [hnone, absent_of_undeclared hpart hparts hy hname hout]
    exact trivial

/-- A member gives back what its fields do, the one of the tag aside. -/
theorem mem_echo_body {part : MemberFrame}
    (h : ∀ field ∈ part.fields, Compiled field.schema (path.child field.name) field.frame)
    (hn : (part.fields.map (·.name)).Nodup)
    (ht : Schema.memberTags discriminator path part.schema = .ok part.tags) :
    write ∈ Block.echoAll (part.body discriminator path) x ↔
      ∃ field ∈ part.fields, field.name ≠ discriminator ∧
        write ∈ Block.echoAll field.frame.blocks x := by
  simp only [Block.mem_echoAll, MemberFrame.mem_body h hn ht]
  constructor
  · rintro ⟨block, ⟨field, hf, hname, hb⟩, hw⟩
    exact ⟨field, hf, hname, block, hb, hw⟩
  · rintro ⟨field, hf, hname, block, hb, hw⟩
    exact ⟨block, ⟨field, hf, hname, hb⟩, hw⟩

/-- Wherever a field is found, it comes back with its content. -/
def Restores (part : FieldFrame) (path : Path) (x y : Value) : Prop :=
  ∀ v, part.schema.Conforms false v → x.lookup (path.child part.name) = some v →
    Reflects y (path.child part.name) (Block.echoAll part.frame.blocks x) →
    ∃ u, y.lookup (path.child part.name) = some u ∧ u.same v = true

theorem same_of_fields {parts : List FieldFrame}
    (hparts : ∀ part ∈ parts, Compiled part.schema (path.child part.name) part.frame)
    (hn : (Schema.object (parts.map FieldFrame.field)).wellNamed = true)
    (hv : (Schema.object (parts.map FieldFrame.field)).Conforms root v)
    (hx : x.lookup path = some v)
    (hy : Reflects y path (Block.echoAll (Frame.join (parts.map (·.frame))).blocks x))
    (htidy : Tidy y)
    (hroot : root = true → Block.echoAll (Frame.join (parts.map (·.frame))).blocks x = [] →
      ∃ ys, y.lookup path = some (.object ys))
    (h : ∀ part ∈ parts, Restores part path x y) :
    ∃ u, y.lookup path = some u ∧ u.same v = true := by
  obtain ⟨values, rfl, hnodup, hd, ha, hfields⟩ := hv.object_inv
  obtain ⟨hnames, hpart⟩ := Schema.wellNamed_fields.mp hn
  rw [List.map_map] at hd
  have hbelow : ∀ write ∈ Block.echoAll (Frame.join (parts.map (·.frame))).blocks x,
      write.1 ≠ path := by
    intro write hw heq
    obtain ⟨part, hp, hw⟩ := Block.mem_echoAll_join.mp hw
    exact Path.not_child_below _ _ (heq ▸ (hparts part hp).below_echo (hpart part hp) write hw)
  obtain ⟨ys, hys⟩ := object_again (.object hparts) hn hv hx hy hroot hbelow
  refine ⟨_, hys, same_object_at hys htidy hnodup fun name => ?_⟩
  refine sameSlot_named x hpart hparts hy hnames (hd name)
    (fun part hp _ write hw => Block.mem_echoAll_join.mpr ⟨part, hp, hw⟩)
    (fun write hw => .inr (Block.mem_echoAll_join.mp hw)) fun part hp _ hreflects => ?_
  have hmem := List.mem_map_of_mem (f := FieldFrame.field) hp
  exact sameSlot_field (hparts part hp) hx hreflects (ha _ hmem) fun v hl hchild =>
    h part hp v (hfields _ hmem v hl) hchild hreflects

theorem same_of_members {parts : List MemberFrame}
    (hparts : ∀ part ∈ parts, ∀ field ∈ part.fields,
      Compiled field.schema (path.child field.name) field.frame)
    (ht : ∀ part ∈ parts, Schema.memberTags discriminator path part.schema = .ok part.tags)
    (hb : Block.ofMembers discriminator path
      (parts.flatMap (MemberFrame.options discriminator path)) = .ok block)
    (hn : (Schema.union discriminator (parts.map (·.schema))).wellNamed = true)
    (hv : (Schema.union discriminator (parts.map (·.schema))).Conforms root v)
    (hx : x.lookup path = some v) (hy : Reflects y path (block.echo x)) (htidy : Tidy y)
    (h : ∀ part ∈ parts, ∀ field ∈ part.fields, Restores field path x y) :
    ∃ u, y.lookup path = some u ∧ u.same v = true := by
  obtain ⟨hdisc, hmembers⟩ := Schema.wellNamed_members.mp hn
  obtain ⟨values, kind, options, part, hp, rfl, rfl, htag, hbears, hselect, hnodup, hd, ha,
    hfields⟩ := hv.union_selects ht hb hdisc hx
  obtain ⟨hnames, hpart⟩ := Schema.wellNamed_fields.mp (hmembers part hp)
  rw [Block.echo_union hdisc, Block.echoOption_eq, hselect] at hy
  have hbody : ∀ write, write ∈ Block.echoAll (part.body discriminator path) x ↔ _ := fun _ =>
    mem_echo_body (hparts part hp) hnames (ht part hp)
  have hheld := hy.holds _ (List.mem_cons_self ..)
  obtain ⟨ys, hys⟩ := Value.object_of_lookup_below hheld (Path.below_child path discriminator)
    (Path.child_ne_self path discriminator)
  refine ⟨_, hys, same_object_at hys htidy hnodup fun name => ?_⟩
  by_cases hname : name = discriminator
  · subst hname
    rw [hheld, htag]
    exact Kind.same_own hbears
  · refine sameSlot_named x hpart (hparts part hp) hy hnames (hd name) ?_ ?_
      fun field hf heq hreflects => ?_
    · rintro field hf rfl write hw
      exact List.mem_cons_of_mem _ ((hbody write).mpr ⟨field, hf, hname, hw⟩)
    · intro write hw
      rcases List.mem_cons.mp hw with rfl | hw
      · exact .inl (Path.apart_child path (Ne.symm hname))
      · obtain ⟨field, hf, -, hw⟩ := (hbody write).mp hw
        exact .inr ⟨field, hf, hw⟩
    · exact sameSlot_field (hparts part hp field hf) hx hreflects (ha field hf) fun v hl hchild =>
        h part hp field hf v (hfields field hf (heq ▸ hname) v hl) hchild hreflects

/-- What reflects the echo of a conforming document has its content. -/
theorem same_of_reflects (h : Compiled schema path frame) (hn : schema.wellNamed = true)
    (hv : schema.Conforms root v) (hx : x.lookup path = some v)
    (hy : Reflects y path (Block.echoAll frame.blocks x)) (htidy : Tidy y)
    (hroot : root = true → Block.echoAll frame.blocks x = [] →
      ∃ ys, y.lookup path = some (.object ys)) :
    ∃ u, y.lookup path = some u ∧ u.same v = true := by
  induction h generalizing root v x y with
  | leaf hk =>
    have hheld := hy.holds _ (Block.mem_echoAll_singleton.mpr (List.mem_singleton_self _))
    rw [Value.held_of_lookup hx] at hheld
    exact ⟨_, hheld, Kind.same_own (hv.leaf_inv hk)⟩
  | object hparts ih =>
    have hnamed := (Schema.wellNamed_fields.mp hn).2
    refine same_of_fields hparts hn hv hx hy htidy hroot fun part hp v hconforms hchild hreflects => ?_
    exact ih part hp (hnamed part hp) hconforms hchild hreflects htidy (by simp)
  | union hparts ht hb ih =>
    have hmembers := (Schema.wellNamed_members.mp hn).2
    rw [Frame.blocks_lead, Block.echoAll_singleton] at hy
    refine same_of_members hparts ht hb hn hv hx hy htidy
      fun part hp field hf v hconforms hchild hreflects => ?_
    have hnamed := (Schema.wellNamed_fields.mp (hmembers part hp)).2
    exact ih part hp field hf (hnamed field hf) hconforms hchild hreflects htidy (by simp)
  | array hc ih =>
    obtain ⟨items, rfl, hitems⟩ := hv.array_inv
    rw [Schema.wellNamed] at hn
    rw [Frame.blocks_trail, Block.echoAll_singleton, echo_array _ _ hx] at hy
    have hw := hc.wellLaid_plain hn
    refine ⟨_, hy.holds _ (List.mem_singleton_self _), Value.same_array fun item hi => ?_⟩
    -- each element is a document of its own, with its root at the empty path
    obtain ⟨u, hu, hsame⟩ := ih hn (hitems item hi) rfl
      (Value.reflects_assignAll (Value.blank_empty []) (spread_echoAll hw.laid hw.spread))
      (tidy_ofWrites_echoAll hw.laid) fun _ hnil => ⟨[], by rw [hnil]; rfl⟩
    cases hu
    exact hsame
  | slot hi hc ih =>
    rw [Schema.wellNamed_slot hi] at hn
    rw [Frame.blocks_trail, Block.echoAll_singleton] at hy hroot
    by_cases hnull : v = .null
    · subst hnull
      rw [Block.echo_ofSlot_null hx] at hy
      exact ⟨.null, hy.holds _ (List.mem_singleton_self _), rfl⟩
    · rw [Block.echo_ofSlot_present hx hnull] at hy hroot
      exact ih hn (hv.slot_inv hi hnull) hx hy htidy hroot
  | refined hb _ ih =>
    rw [Schema.wellNamed_refined hb] at hn
    exact ih hn (hv.refined_inv hb) hx hy htidy hroot

end Compiled

namespace Schema

/-- A document that conforms to its schema can be written, and what is read back has its content. -/
theorem decode_encode_same {schema : Schema} (options : DecodeOptions)
    (hc : schema.compile = .ok program) (hn : schema.wellNamed = true)
    (hx : schema.Conforms true x) :
    ∃ bytes, program.encode x = .ok bytes ∧ (bytes.length < UInt64.size →
      Block.WithinAll options.toLimits program 0 x →
      ∃ y, program.decode options bytes = .ok y ∧ y.same x = true) := by
  obtain ⟨frame, hf, rfl⟩ := compile_ok hc
  obtain ⟨bytes, hbytes⟩ := hf.emits hn hx rfl
  have hencode := Program.encode_ok.mpr hbytes
  refine ⟨bytes, hencode, fun hlen hin => ?_⟩
  have hw := hf.wellLaid_plain hn
  refine ⟨_, Program.decode_eq (Program.read_written options hw.laid hencode hlen hin), ?_⟩
  have hreflects := Value.reflects_assignAll (Value.blank_empty [])
    (spread_echoAll hw.laid hw.spread (x := x))
  obtain ⟨u, hu, hsame⟩ := hf.same_of_reflects hn hx rfl hreflects
    (tidy_ofWrites_echoAll hw.laid) fun _ hnil => ⟨[], by rw [hnil]; rfl⟩
  cases hu
  exact hsame

theorem decode_encode_same_disc : ∃ program bytes y,
    (object [("at", date), ("shape", optional (union "kind"
      [object [("kind", literal (.text "disc")), ("r", number [])]]))]).compile = .ok program ∧
      program.encode (.object [("shape", .object [("r", .int 2), ("kind", .text "disc")]),
        ("at", .int 7)]) = .ok bytes ∧ program.decode .exact bytes = .ok y ∧
      y.same (.object [("shape", .object [("r", .int 2), ("kind", .text "disc")]),
        ("at", .int 7)]) = true := by
  have hc : (object [("at", date), ("shape", optional (union "kind"
      [object [("kind", literal (.text "disc")), ("r", number [])]]))]).compile
      = .ok [.primitive .date ["at"], .ofSlot [.discriminator .string
        [(.string "disc", [.primitive .float ["shape", "r"]])] "kind" ["shape"]] ["shape"]] := rfl
  have hshape : Conforms (union "kind" [object [("kind", literal (.text "disc")), ("r", number [])]])
      false (.object [("r", .int 2), ("kind", .text "disc")]) := by
    refine .union (by decide) rfl rfl rfl rfl ?_ (by decide) ?_
    · exact fun name h => (by decide : ∀ name ∈ ["r", "kind"], name ∈ ["kind", "r"]) name
        (Value.mem_names_iff.mpr h)
    · refine List.forall_mem_cons.mpr ⟨fun h => absurd rfl h,
        List.forall_mem_singleton.mpr fun _ value hl => ?_⟩
      cases hl
      exact .leaf rfl (by decide +kernel)
  have hx : Conforms (object [("at", date), ("shape", optional (union "kind"
      [object [("kind", literal (.text "disc")), ("r", number [])]]))]) true
      (.object [("shape", .object [("r", .int 2), ("kind", .text "disc")]), ("at", .int 7)]) := by
    refine .object (by decide) ?_ (by decide) ?_ (.inl rfl)
    · exact fun name h => (by decide : ∀ name ∈ ["shape", "at"], name ∈ ["at", "shape"]) name
        (Value.mem_names_iff.mpr h)
    · refine List.forall_mem_cons.mpr ⟨fun value hl => ?_,
        List.forall_mem_singleton.mpr fun value hl => ?_⟩
      · cases hl
        exact .leaf rfl rfl
      · cases hl
        exact .slot rfl hshape
  obtain ⟨bytes, hbytes, hagain⟩ := decode_encode_same .exact hc rfl hx
  have hwritten : Program.encode [.primitive .date ["at"], .ofSlot [.discriminator .string
      [(.string "disc", [.primitive .float ["shape", "r"]])] "kind" ["shape"]] ["shape"]]
      (.object [("shape", .object [("r", .int 2), ("kind", .text "disc")]), ("at", .int 7)])
      = .ok [7, 0, 0, 0, 0, 0, 0, 0, 1, 4, 100, 105, 115, 99, 0, 0, 0, 0, 0,
        0, 0, 64] :=
    Program.encode_ok.mpr (by decide +kernel)
  cases hbytes.symm.trans hwritten
  obtain ⟨y, hy, hsame⟩ := hagain (by decide) ⟨trivial, ⟨⟨trivial, trivial⟩, trivial⟩, trivial⟩
  exact ⟨_, _, y, hc, hwritten, hy, hsame⟩

end Schema

end Positional
