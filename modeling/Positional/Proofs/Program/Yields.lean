import Positional.Proofs.Program.Echo

/-!
# What any bytes make a block assign

`Block.Yields` says which assignments a block can make, bytes aside: scalars in the variant of their
kind, elements built from assignments of the inner blocks, and the blocks of the option that the tag
selects. Every run of reading makes such assignments, at the path of the block or below it.
-/

namespace Positional

namespace Kind

def holds : Kind → Value → Bool
  | string, .text _ | float, .float _ | int, .int _ | uint, .uint _ | boolean, .bool _
  | date, .date _ | buffer, .bytes _ | null, .null => true
  | _, _ => false

theorem holds_canonical {kind : Kind} {own : Value} (h : kind.canonical? value = some own) :
    kind.holds own = true := by
  cases kind with
  | float => obtain ⟨x, -, rfl⟩ := Option.map_eq_some_iff.mp h; rfl
  | int => obtain ⟨n, -, rfl⟩ := Option.map_eq_some_iff.mp h; rfl
  | uint => obtain ⟨n, -, rfl⟩ := Option.map_eq_some_iff.mp h; rfl
  | buffer => obtain ⟨content, -, rfl⟩ := Option.map_eq_some_iff.mp h; rfl
  | _ => cases value <;> cases h <;> rfl

theorem holds_of_read {kind : Kind} (h : kind.read.run cursor = (.ok value, last)) :
    kind.holds value = true :=
  holds_canonical (read_ok h).1

end Kind

namespace Block

mutual

/-- Assignments that reading the block can make. -/
def Yields : Block → Writes → Prop
  | .primitive kind path, writes => ∃ value, kind.holds value = true ∧ writes = [(path, value)]
  | .array .object inner path, writes => ∃ items, writes = [(path, .array items)] ∧
    ∀ item ∈ items, ∃ own, YieldsAll inner own ∧ item = .ofWrites own
  | .array (.scalar kind) _ path, writes => ∃ items, writes = [(path, .array items)] ∧
    ∀ item ∈ items, kind.holds item = true
  | .discriminator kind options field path, writes => ∃ tag body, kind.holds tag = true ∧
    YieldsOption options tag body ∧ writes = tagWrites path field tag ++ body

def YieldsAll : List Block → Writes → Prop
  | [], writes => writes = []
  | block :: rest, writes => ∃ first others, block.Yields first ∧ YieldsAll rest others ∧
    writes = first ++ others

def YieldsOption : List (Tag × List Block) → (tag : Value) → Writes → Prop
  | [], _, writes => writes = []
  | (option, body) :: rest, tag, writes =>
    if option.matchesValue tag then YieldsAll body writes else YieldsOption rest tag writes

end

end Block

namespace Reader

theorem timesAfter_forall {reader : Reader α} {good : α → Prop}
    (h : ∀ cursor item last, reader.run cursor = (.ok item, last) → good item)
    (hdone : ∀ item ∈ done, good item)
    (hrun : (timesAfter reader done count).run cursor = (.ok all, last)) :
    ∀ item ∈ all, good item := by
  obtain ⟨items, rfl, -, hitems⟩ := timesAfter_induct (P := fun _ _ items => ∀ item ∈ items, good item)
    (fun _ _ hi => absurd hi List.not_mem_nil)
    (fun hitem hrest => List.forall_mem_cons.mpr ⟨h _ _ _ hitem, hrest⟩) hrun
  exact List.forall_mem_append.mpr ⟨fun item hi => hdone item (List.mem_reverse.mp hi), hitems⟩

theorem elements_hold (h : (elements kind count).run cursor = (.ok items, last)) :
    ∀ item ∈ items, kind.holds item = true := by
  cases kind with
  | boolean =>
    obtain ⟨flags, mid, -, h⟩ := bind_ok.mp h
    obtain ⟨rfl, rfl⟩ := pure_ok.mp h
    intro item hi
    obtain ⟨flag, -, rfl⟩ := List.mem_map.mp hi
    rfl
  | _ =>
    exact timesAfter_forall (fun _ _ _ => Kind.holds_of_read) (fun _ hi => absurd hi List.not_mem_nil) h

end Reader

namespace Block

-- ---------------------------------------------------------------------------
-- Every run
-- ---------------------------------------------------------------------------

mutual

/-- Whatever the bytes, reading a block makes assignments that it can make. -/
theorem yields_of_read : (block : Block) → (block.read limits depth).run cursor = (.ok writes, last) →
    block.Yields writes
  | .primitive kind path, h => by
    obtain ⟨value, mid, hvalue, h⟩ := Reader.bind_ok.mp h
    obtain ⟨rfl, rfl⟩ := Reader.pure_ok.mp h
    exact ⟨value, Kind.holds_of_read hvalue, rfl⟩
  | .array .object inner path, h => by
    rw [read] at h
    obtain ⟨count, mid, -, h⟩ := Reader.bind_ok.mp h
    split at h
    · exact absurd h Reader.throw_ok
    · obtain ⟨items, mid', hitems, h⟩ := Reader.bind_ok.mp h
      obtain ⟨rfl, rfl⟩ := Reader.pure_ok.mp h
      refine ⟨items, rfl, Reader.timesAfter_forall (fun cursor item last hitem => ?_)
        (fun _ hi => absurd hi List.not_mem_nil) hitems⟩
      obtain ⟨own, hown, rfl⟩ := Reader.map_ok.mp hitem
      exact ⟨own, yieldsAll_of_read inner hown, rfl⟩
  | .array (.scalar kind) inner path, h => by
    rw [read] at h
    obtain ⟨_, start, -, h⟩ := Reader.bind_ok.mp h
    obtain ⟨count, mid, -, h⟩ := Reader.bind_ok.mp h
    obtain ⟨items, mid', hitems, h⟩ := Reader.bind_ok.mp h
    obtain ⟨rfl, rfl⟩ := Reader.pure_ok.mp h
    exact ⟨items, rfl, Reader.elements_hold hitems⟩
  | .discriminator kind options field path, h => by
    obtain ⟨tag, mid, htag, h⟩ := Reader.bind_ok.mp h
    obtain ⟨body, mid', hbody, h⟩ := Reader.bind_ok.mp h
    obtain ⟨rfl, rfl⟩ := Reader.pure_ok.mp h
    exact ⟨tag, body, Kind.holds_of_read htag, yieldsOption_of_read options hbody, rfl⟩

theorem yieldsAll_of_read : (blocks : List Block) →
    (readAll limits blocks depth).run cursor = (.ok writes, last) → YieldsAll blocks writes
  | [], h => (Reader.pure_ok.mp h).1.symm
  | block :: rest, h => by
    obtain ⟨first, mid, hfirst, h⟩ := Reader.bind_ok.mp h
    obtain ⟨others, mid', hothers, h⟩ := Reader.bind_ok.mp h
    obtain ⟨rfl, rfl⟩ := Reader.pure_ok.mp h
    exact ⟨first, others, yields_of_read block hfirst, yieldsAll_of_read rest hothers, rfl⟩

theorem yieldsOption_of_read : (options : List (Tag × List Block)) →
    (readOption limits options tag depth).run cursor = (.ok writes, last) →
    YieldsOption options tag writes
  | [], h => (Reader.pure_ok.mp h).1.symm
  | (option, body) :: rest, h => by
    rw [readOption] at h
    rw [YieldsOption]
    split
    · rename_i hm
      rw [if_pos hm] at h
      exact yieldsAll_of_read body h
    · rename_i hm
      rw [if_neg hm] at h
      exact yieldsOption_of_read rest h

end

-- ---------------------------------------------------------------------------
-- The parts of a run
-- ---------------------------------------------------------------------------

variable {path : Path}

theorem yieldsOption_iff (options : List (Tag × Program)) : YieldsOption options tag writes ↔
    match select options tag with
    | some body => YieldsAll body writes
    | none => writes = [] := by
  induction options with
  | nil => exact Iff.rfl
  | cons option rest ih =>
    obtain ⟨head, body⟩ := option
    by_cases h : head.matchesValue tag = true
    · simp [YieldsOption, select, h]
    · simp only [Bool.not_eq_true] at h
      rw [YieldsOption, if_neg (by simp [h]), ih]
      simp [select, h]

theorem yields_ofSlot (h : (ofSlot wrapped path).Yields writes) :
    writes = [] ∨ writes = [(path, .null)] ∨ YieldsAll wrapped writes := by
  obtain ⟨tag, body, -, hbody, hwrites⟩ := h
  -- a presence tag is not assigned
  obtain rfl : writes = body := hwrites
  rw [YieldsOption] at hbody
  split at hbody
  · exact .inl hbody
  · rw [YieldsOption] at hbody
    split at hbody
    · exact .inr (.inr hbody)
    · rw [YieldsOption] at hbody
      split at hbody
      · obtain ⟨first, others, ⟨value, hvalue, rfl⟩, rfl, rfl⟩ := hbody
        cases value <;> cases hvalue
        exact .inr (.inl rfl)
      · exact .inl hbody

/-- Blocks at places of their own each have their own assignments. -/
theorem YieldsAll.exists_own (hs : Spread blocks) (h : YieldsAll blocks writes) :
    ∃ own : Block → Writes, (∀ block ∈ blocks, block.Yields (own block)) ∧
      writes = blocks.flatMap own := by
  induction blocks generalizing writes with
  | nil => exact ⟨fun _ => [], by simp, h⟩
  | cons block rest ih =>
    obtain ⟨first, others, hfirst, hothers, rfl⟩ := h
    obtain ⟨happ, hrest⟩ := List.pairwise_cons.mp hs
    obtain ⟨own, hown, rfl⟩ := ih hrest hothers
    have hne : ∀ other ∈ rest, other.path ≠ block.path := fun other ho heq =>
      (happ other ho).1 (heq ▸ List.prefix_rfl)
    refine ⟨fun other => if other.path = block.path then first else own other, ?_, ?_⟩
    · simp only [List.forall_mem_cons, if_pos]
      refine ⟨hfirst, fun other ho => ?_⟩
      rw [if_neg (hne other ho)]
      exact hown other ho
    · rw [List.flatMap_cons, if_pos rfl, List.flatMap_def, List.flatMap_def,
        List.map_congr_left fun other ho => if_neg (hne other ho)]

end Block

-- ---------------------------------------------------------------------------
-- Where the assignments are
-- ---------------------------------------------------------------------------

structure Writes.Under (writes : Writes) (path : Path) : Prop where
  spread : writes.Spread
  below : ∀ write ∈ writes, path <+: write.1

theorem Writes.under_nil (path : Path) : Writes.Under [] path :=
  ⟨List.Pairwise.nil, fun _ hw => absurd hw List.not_mem_nil⟩

theorem Writes.under_singleton (path : Path) (value : Value) : Writes.Under [(path, value)] path :=
  ⟨List.pairwise_singleton .., List.forall_mem_singleton.mpr List.prefix_rfl⟩

theorem Block.under_flatMap {path : Path} {own : Block → Writes} (hb : Below path blocks)
    (hs : Spread blocks)
    (h : ∀ block ∈ blocks, (own block).Under block.path) :
    Writes.Under (blocks.flatMap own) path where
  spread := spread_flatMap (fun block hblock => ⟨(h block hblock).spread, (h block hblock).below⟩) hs
  below write hw := by
    obtain ⟨block, hblock, hw⟩ := List.mem_flatMap.mp hw
    exact (hb block hblock).trans ((h block hblock).below write hw)

theorem Laid.under_yields (h : Laid rule block) (hy : block.Yields writes) :
    writes.Under block.path := by
  induction h generalizing writes with
  | primitive =>
    obtain ⟨value, -, rfl⟩ := hy
    exact Writes.under_singleton ..
  | flat =>
    obtain ⟨items, rfl, -⟩ := hy
    exact Writes.under_singleton ..
  | records =>
    obtain ⟨items, rfl, -⟩ := hy
    exact Writes.under_singleton ..
  | slot _ hb hs _ ih =>
    obtain rfl | rfl | hbody := Block.yields_ofSlot hy
    · exact Writes.under_nil _
    · exact Writes.under_singleton ..
    · obtain ⟨own, hown, rfl⟩ := hbody.exists_own hs
      exact Block.under_flatMap hb hs fun block hblock => ih block hblock (hown block hblock)
  | union hf ht hl hb ha hs ih =>
    rename_i field options path kind
    obtain ⟨tag, body, -, hbody, rfl⟩ := hy
    have hselect := (Block.yieldsOption_iff options).mp hbody
    rw [tagWrites, Value.tellsPresence_of_ne hf, if_neg Bool.false_ne_true, List.singleton_append]
    suffices hunder : body.Under path ∧
        ∀ write ∈ body, Path.Apart (path.child field) write.1 from
      ⟨List.pairwise_cons.mpr ⟨hunder.2, hunder.1.spread⟩,
        List.forall_mem_cons.mpr ⟨Path.below_child path field, hunder.1.below⟩⟩
    cases hselected : Block.select options tag with
    | none =>
      rw [hselected] at hselect
      obtain rfl := hselect
      exact ⟨Writes.under_nil _, fun _ hw => absurd hw List.not_mem_nil⟩
    | some selected =>
      rw [hselected] at hselect
      obtain ⟨option, ho, rfl⟩ := Option.map_eq_some_iff.mp hselected
      have ho := List.mem_of_find?_eq_some ho
      obtain ⟨own, hown, rfl⟩ := hselect.exists_own (hs option ho)
      have hunder := fun block hblock => ih option ho block hblock (hown block hblock)
      refine ⟨Block.under_flatMap (hb option ho) (hs option ho) hunder, fun write hw => ?_⟩
      obtain ⟨block, hblock, hw⟩ := List.mem_flatMap.mp hw
      exact ((ha option ho block hblock).symm.below ((hunder block hblock).below write hw)).symm

end Positional
