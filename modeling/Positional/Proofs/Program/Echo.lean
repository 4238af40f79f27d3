import Positional.Proofs.Program.Frames
import Positional.Program.Reading

/-!
# What reading gives back

For a document that a program can write, `Block.echo` is what reading the bytes assigns: every leaf
in the variant of its kind, every element from its own blocks alone, no trace of a presence tag. It
comes from the document directly, not from the bytes, and `Laid.returns_read` shows that the reader
agrees. The reader's limits are met when `Block.Within` holds.
-/

namespace Positional

def Limits.Admits (limits : Limits) (count : Nat) : Prop :=
  count ≤ limits.arrayElements ∧ count < UInt64.size

namespace Block

mutual

/-- What reading a block back assigns. -/
def echo : Block → Value → Writes
  | .primitive kind path, x => [(path, kind.own (x.held path))]
  | .array .object inner path, x =>
    [(path, .array ((x.held path).items.map fun item => .ofWrites (echoAll inner item)))]
  | .array (.scalar kind) _ path, x => [(path, .array ((x.held path).items.map kind.own))]
  | .discriminator kind options field path, x =>
    tagWrites path field (kind.own (x.tagAt path field)) ++ echoOption options (x.tagAt path field) x

def echoAll : List Block → Value → Writes
  | [], _ => []
  | block :: rest, x => block.echo x ++ echoAll rest x

def echoOption : List (Tag × List Block) → Value → Value → Writes
  | [], _, _ => []
  | (option, body) :: rest, tag, x =>
    if option.matchesValue tag then echoAll body x else echoOption rest tag x

end

mutual

/-- The arrays that a block takes from a document are within the limits. -/
def Within (limits : Limits) : Block → (depth : Nat) → Value → Prop
  | .primitive _ _, _, _ => True
  | .array .object inner path, depth, x =>
    limits.Admits (x.held path).items.length ∧ depth + 1 ≤ limits.depth ∧
      ∀ item ∈ (x.held path).items, WithinAll limits inner (depth + 1) item
  | .array (.scalar _) _ path, _, x => limits.Admits (x.held path).items.length
  | .discriminator _ options field path, depth, x =>
    WithinOption limits options (x.tagAt path field) depth x

def WithinAll (limits : Limits) : List Block → (depth : Nat) → Value → Prop
  | [], _, _ => True
  | block :: rest, depth, x => block.Within limits depth x ∧ WithinAll limits rest depth x

def WithinOption (limits : Limits) :
    List (Tag × List Block) → (tag : Value) → (depth : Nat) → Value → Prop
  | [], _, _, _ => True
  | (option, body) :: rest, tag, depth, x =>
    if option.matchesValue tag then WithinAll limits body depth x
    else WithinOption limits rest tag depth x

end

variable {path : Path} {x y : Value}

theorem withinAll_iff : WithinAll limits blocks depth x ↔
    ∀ block ∈ blocks, block.Within limits depth x := by
  induction blocks with
  | nil => simp [WithinAll]
  | cons block rest ih => simp [WithinAll, ih]

theorem echoAll_eq_flatMap (blocks : Program) (x : Value) :
    echoAll blocks x = blocks.flatMap (echo · x) := by
  induction blocks with
  | nil => rfl
  | cons block rest ih => rw [echoAll, ih, List.flatMap_cons]

theorem echoOption_eq (options : List (Tag × Program)) (tag x : Value) :
    echoOption options tag x =
      match select options tag with
      | some body => echoAll body x
      | none => [] := by
  induction options with
  | nil => rfl
  | cons option rest ih =>
    obtain ⟨head, body⟩ := option
    by_cases h : head.matchesValue tag = true
    · simp [echoOption, select, h]
    · simp only [Bool.not_eq_true] at h
      simp [echoOption, select, h, ih]

theorem echo_union {field : String} (hf : field ≠ "") :
    (discriminator kind options field path).echo x
      = (path.child field, kind.own (x.tagAt path field))
        :: echoOption options (x.tagAt path field) x := by
  rw [echo, tagWrites, Value.tellsPresence_of_ne hf]
  rfl

-- ---------------------------------------------------------------------------
-- Slots
-- ---------------------------------------------------------------------------

theorem own_uint (n : UInt64) : Kind.uint.own (.uint n) = .uint n := by
  rw [Kind.own, Kind.canonical?, Value.toUInt64?_uint, Option.map_some, Option.getD_some]

theorem echo_ofSlot_absent (h : x.lookup path = none) : (ofSlot wrapped path).echo x = [] := by
  rw [ofSlot, echo, Value.tagAt_presence, h]
  rfl

theorem echo_ofSlot_null (h : x.lookup path = some .null) :
    (ofSlot wrapped path).echo x = [(path, .null)] := by
  rw [ofSlot, echo, Value.tagAt_presence, h]
  rfl

theorem echo_ofSlot_present (h : x.lookup path = some v) (hv : v ≠ .null) :
    (ofSlot wrapped path).echo x = echoAll wrapped x := by
  rw [ofSlot, echo, Value.tagAt_presence, h, presenceTag_present hv]
  rfl

theorem within_ofSlot_absent (h : x.lookup path = none) :
    (ofSlot wrapped path).Within limits depth x := by
  rw [ofSlot, Within, Value.tagAt_presence, h]
  exact trivial

theorem within_ofSlot_null (h : x.lookup path = some .null) :
    (ofSlot wrapped path).Within limits depth x := by
  rw [ofSlot, Within, Value.tagAt_presence, h]
  exact ⟨trivial, trivial⟩

theorem within_ofSlot_present (h : x.lookup path = some v) (hv : v ≠ .null) :
    (ofSlot wrapped path).Within limits depth x ↔ WithinAll limits wrapped depth x := by
  rw [ofSlot, Within, Value.tagAt_presence, h, presenceTag_present hv]
  rfl

-- ---------------------------------------------------------------------------
-- Locality
-- ---------------------------------------------------------------------------

theorem echoAll_congr (h : ∀ block ∈ blocks, block.echo x = block.echo y) :
    echoAll blocks x = echoAll blocks y := by
  induction blocks with
  | nil => rfl
  | cons block rest ih =>
    rw [echoAll, echoAll, h block (List.mem_cons_self ..), ih fun b hb => h b (List.mem_cons_of_mem _ hb)]

theorem echoOption_congr (h : ∀ option ∈ options, echoAll option.2 x = echoAll option.2 y) :
    echoOption options tag x = echoOption options tag y := by
  induction options with
  | nil => rfl
  | cons option rest ih =>
    rw [echoOption, echoOption, h option (List.mem_cons_self ..),
      ih fun o ho => h o (List.mem_cons_of_mem _ ho)]

theorem withinOption_congr
    (h : ∀ option ∈ options, WithinAll limits option.2 depth x ↔ WithinAll limits option.2 depth y) :
    WithinOption limits options tag depth x ↔ WithinOption limits options tag depth y := by
  induction options with
  | nil => rfl
  | cons option rest ih =>
    rw [WithinOption, WithinOption, h option (List.mem_cons_self ..),
      ih fun o ho => h o (List.mem_cons_of_mem _ ho)]

theorem tagAt_congr (h : x.lookup path = y.lookup path) : x.tagAt path field = y.tagAt path field := by
  have hchild := Value.held_congr (Value.lookup_congr h (Path.below_child path field))
  simp only [Value.tagAt, h, hchild]

theorem echo_discriminator_congr (hl : x.lookup path = y.lookup path)
    (h : ∀ option ∈ options, ∀ block ∈ option.2, block.echo x = block.echo y) :
    (discriminator kind options field path).echo x
      = (discriminator kind options field path).echo y := by
  rw [echo, echo, tagAt_congr hl, echoOption_congr fun option ho => echoAll_congr (h option ho)]

theorem within_discriminator_congr (hl : x.lookup path = y.lookup path)
    (h : ∀ option ∈ options, ∀ block ∈ option.2,
      block.Within limits depth x ↔ block.Within limits depth y) :
    (discriminator kind options field path).Within limits depth x ↔
      (discriminator kind options field path).Within limits depth y := by
  rw [Within, Within, tagAt_congr hl]
  refine withinOption_congr fun option ho => ?_
  rw [withinAll_iff, withinAll_iff]
  exact forall₂_congr (h option ho)

end Block

/-- A block gives back the same from documents that agree at its path. -/
theorem Laid.echo_congr (h : Laid rule block) {x y : Value}
    (hl : x.lookup block.path = y.lookup block.path) : block.echo x = block.echo y := by
  induction h with
  | primitive =>
    rw [Block.path] at hl
    rw [Block.echo, Block.echo, Value.held_congr hl]
  | flat =>
    rw [Block.path] at hl
    rw [Block.echo, Block.echo, Value.held_congr hl]
  | records =>
    rw [Block.path] at hl
    rw [Block.echo, Block.echo, Value.held_congr hl]
  | slot _ hb _ _ ih =>
    exact Block.echo_discriminator_congr hl (forall_options_ofSlot rfl fun block hblock =>
      ih block hblock (Value.lookup_congr hl (hb block hblock)))
  | union _ _ _ hb _ _ ih =>
    exact Block.echo_discriminator_congr hl fun option ho block hblock =>
      ih option ho block hblock (Value.lookup_congr hl (hb option ho block hblock))

theorem Laid.within_congr (h : Laid rule block) {x y : Value}
    (hl : x.lookup block.path = y.lookup block.path) :
    block.Within limits depth x ↔ block.Within limits depth y := by
  induction h with
  | primitive => rw [Block.Within, Block.Within]
  | flat =>
    rw [Block.path] at hl
    rw [Block.Within, Block.Within, Value.held_congr hl]
  | records =>
    rw [Block.path] at hl
    rw [Block.Within, Block.Within, Value.held_congr hl]
  | slot _ hb _ _ ih =>
    exact Block.within_discriminator_congr hl (forall_options_ofSlot Iff.rfl fun block hblock =>
      ih block hblock (Value.lookup_congr hl (hb block hblock)))
  | union _ _ _ hb _ _ ih =>
    exact Block.within_discriminator_congr hl fun option ho block hblock =>
      ih option ho block hblock (Value.lookup_congr hl (hb option ho block hblock))

-- ---------------------------------------------------------------------------
-- Where the assignments are
-- ---------------------------------------------------------------------------

def Writes.Spread (writes : Writes) : Prop := writes.Pairwise fun a b => Path.Apart a.1 b.1

namespace Block

theorem mem_echoAll : write ∈ echoAll blocks x ↔ ∃ block ∈ blocks, write ∈ block.echo x := by
  rw [echoAll_eq_flatMap, List.mem_flatMap]

theorem echoOption_induct {motive : Writes → Prop} (hn : motive [])
    (h : ∀ option ∈ options, motive (echoAll option.2 x)) : motive (echoOption options tag x) := by
  induction options with
  | nil => exact hn
  | cons option rest ih =>
    rw [echoOption]
    split
    · exact h option (List.mem_cons_self ..)
    · exact ih fun o ho => h o (List.mem_cons_of_mem _ ho)

theorem below_echo_discriminator {path : Path}
    (h : ∀ option ∈ options, ∀ block ∈ option.2, ∀ write ∈ block.echo x, path <+: write.1)
    (hw : write ∈ (discriminator kind options field path).echo x) : path <+: write.1 := by
  rw [echo, List.mem_append] at hw
  rcases hw with hw | hw
  · rw [tagWrites] at hw
    split at hw
    · cases hw
    · rw [List.mem_singleton.mp hw]
      exact Path.below_child path field
  · revert hw
    refine echoOption_induct (motive := fun writes => write ∈ writes → path <+: write.1)
      (fun hw => absurd hw List.not_mem_nil) fun option ho hw => ?_
    obtain ⟨block, hb, hw⟩ := mem_echoAll.mp hw
    exact h option ho block hb write hw

theorem spread_flatMap {own : Block → Writes} (h : ∀ block ∈ blocks, (own block).Spread ∧
      ∀ write ∈ own block, block.path <+: write.1) (hs : Spread blocks) :
    Writes.Spread (blocks.flatMap own) := by
  rw [Writes.Spread, List.pairwise_flatMap]
  refine ⟨fun block hb => (h block hb).1, hs.imp_of_mem fun ha hb hab w hw w' hw' => ?_⟩
  exact ((hab.below ((h _ ha).2 w hw)).symm.below ((h _ hb).2 w' hw')).symm

theorem spread_echoAll_of (h : ∀ block ∈ blocks, (block.echo x).Spread ∧
      ∀ write ∈ block.echo x, block.path <+: write.1) (hs : Spread blocks) :
    (echoAll blocks x).Spread := by
  rw [echoAll_eq_flatMap]
  exact spread_flatMap h hs

end Block

theorem Laid.below_echo (h : Laid rule block) : ∀ write ∈ block.echo x, block.path <+: write.1 := by
  induction h with
  | primitive => simp [Block.echo, Block.path]
  | flat => simp [Block.echo, Block.path]
  | records => simp [Block.echo, Block.path]
  | slot _ hb _ _ ih =>
    refine fun write => Block.below_echo_discriminator (forall_options_ofSlot ?_ fun block hblock w hw =>
      (hb block hblock).trans (ih block hblock w hw))
    simp [Block.echo]
  | union _ _ _ hb _ _ ih =>
    exact fun write => Block.below_echo_discriminator fun option ho block hblock w hw =>
      (hb option ho block hblock).trans (ih option ho block hblock w hw)

theorem Laid.spread_echo (h : Laid rule block) : (block.echo x).Spread := by
  induction h with
  | primitive => simp [Block.echo, Writes.Spread]
  | flat => simp [Block.echo, Writes.Spread]
  | records => simp [Block.echo, Writes.Spread]
  | slot hl hb hs hr ih =>
    rename_i wrapped path
    have hwrapped := Block.spread_echoAll_of
      (fun block hblock => ⟨ih block hblock, (hl block hblock).below_echo⟩) hs
    rcases slot_cases (x.lookup path) with hx | hx | ⟨v, hx, hv⟩
    · rw [Block.echo_ofSlot_absent hx]
      exact List.Pairwise.nil
    · rw [Block.echo_ofSlot_null hx]
      exact List.pairwise_singleton ..
    · rw [Block.echo_ofSlot_present hx hv]
      exact hwrapped
  | union hf ht hl hb ha hs ih =>
    rename_i field options path kind
    rw [Block.echo_union hf]
    refine List.pairwise_cons.mpr ⟨?_, ?_⟩
    · refine Block.echoOption_induct
        (motive := fun writes => ∀ write ∈ writes, Path.Apart (path.child field) write.1)
        (fun write hw => absurd hw List.not_mem_nil) fun option ho write hw => ?_
      obtain ⟨block, hblock, hw⟩ := Block.mem_echoAll.mp hw
      have hbelow := (hl option ho block hblock).below_echo write hw
      exact ((ha option ho block hblock).symm.below hbelow).symm
    · exact Block.echoOption_induct List.Pairwise.nil fun option ho => Block.spread_echoAll_of
        (fun block hblock => ⟨ih option ho block hblock, (hl option ho block hblock).below_echo⟩)
        (hs option ho)

theorem spread_echoAll (h : ∀ block ∈ blocks, Laid rule block) (hs : Spread blocks) :
    (Block.echoAll blocks x).Spread :=
  Block.spread_echoAll_of (fun block hb => ⟨(h block hb).spread_echo, (h block hb).below_echo⟩) hs

end Positional
