import Positional.Proofs.Document.Lens
import Positional.Proofs.Program.Emitting
import Positional.Proofs.Program.Tags

/-!
# Well-laid programs

The programs that schemas compile to: blocks of one frame stand at paths pairwise apart, what a slot
or a union holds lies below it and apart from its tag, and the kind of a union settles its tags. The
parameter `rule` says what more is known of a slot and the program it wraps.

A block of such a program depends on its document only through what is found at its path.
-/

namespace Positional

/-- Blocks at paths pairwise apart. -/
def Spread (blocks : Program) : Prop := blocks.Pairwise fun a b => Path.Apart a.path b.path

def Below (path : Path) (blocks : Program) : Prop := ∀ block ∈ blocks, path <+: block.path

theorem below_singleton (hp : block.path = path) : Below path [block] :=
  List.forall_mem_singleton.mpr (hp ▸ List.prefix_rfl)

inductive Laid (rule : Path → Program → Prop) : Block → Prop
  | primitive : Laid rule (.primitive kind path)
  | flat {inner : Program} : Laid rule (.array (.scalar kind) inner path)
  | records {inner : Program} (h : ∀ block ∈ inner, Laid rule block) (hs : Spread inner) :
      Laid rule (.array .object inner path)
  | slot (h : ∀ block ∈ wrapped, Laid rule block) (hb : Below path wrapped) (hs : Spread wrapped)
      (hw : rule path wrapped) : Laid rule (.ofSlot wrapped path)
  | union (hf : field ≠ "") (ht : ∀ option ∈ options, kind.Settles option.1)
      (h : ∀ option ∈ options, ∀ block ∈ option.2, Laid rule block)
      (hb : ∀ option ∈ options, Below path option.2)
      (ha : ∀ option ∈ options, ∀ block ∈ option.2, Path.Apart (path.child field) block.path)
      (hs : ∀ option ∈ options, Spread option.2) :
      Laid rule (.discriminator kind options field path)

structure WellLaid (rule : Path → Program → Prop) (path : Path) (blocks : Program) : Prop where
  laid : ∀ block ∈ blocks, Laid rule block
  below : Below path blocks
  spread : Spread blocks

theorem forall_options_ofSlot {motive : Block → Prop} (hn : motive (.primitive .null path))
    (hw : ∀ block ∈ wrapped, motive block) :
    ∀ option ∈ [((.int 0 : Tag), ([] : Program)), (.int 1, wrapped), (.int 2, [.primitive .null path])],
      ∀ block ∈ option.2, motive block := by
  intro option ho block hb
  simp only [List.mem_cons, List.not_mem_nil, or_false] at ho
  rcases ho with rfl | rfl | rfl
  · cases hb
  · exact hw block hb
  · rw [List.mem_singleton.mp hb]
    exact hn

namespace Block

-- ---------------------------------------------------------------------------
-- Locality of writing
-- ---------------------------------------------------------------------------

theorem emitAll_congr (h : ∀ block ∈ blocks, block.emit x = block.emit y) :
    emitAll blocks x = emitAll blocks y := by
  induction blocks with
  | nil => rfl
  | cons block rest ih =>
    rw [emitAll, emitAll, h block (List.mem_cons_self ..), ih fun b hb => h b (List.mem_cons_of_mem _ hb)]

theorem emitOption_congr (h : ∀ option ∈ options, emitAll option.2 x = emitAll option.2 y) :
    emitOption options tag x = emitOption options tag y := by
  induction options with
  | nil => rfl
  | cons option rest ih =>
    rw [emitOption, emitOption, h option (List.mem_cons_self ..),
      ih fun o ho => h o (List.mem_cons_of_mem _ ho)]

end Block

theorem Value.discriminatorTag_congr {x y : Value} (h : x.lookup path = y.lookup path) :
    x.discriminatorTag path field = y.discriminatorTag path field := by
  have hchild := lookup_congr h (Path.below_child path field)
  simp only [discriminatorTag, require, h, hchild]

theorem Block.emit_discriminator_congr {x y : Value} {path : Path}
    (hl : x.lookup path = y.lookup path)
    (h : ∀ option ∈ options, ∀ block ∈ option.2, block.emit x = block.emit y) :
    (discriminator kind options field path).emit x
      = (discriminator kind options field path).emit y := by
  have hbody : ∀ tag, emitOption options tag x = emitOption options tag y :=
    fun tag => emitOption_congr fun option ho => emitAll_congr (h option ho)
  simp only [emit, Value.discriminatorTag_congr hl, hbody]

/-- A block writes the same from documents that agree at its path. -/
theorem Laid.emit_congr (h : Laid rule block) {x y : Value}
    (hl : x.lookup block.path = y.lookup block.path) : block.emit x = block.emit y := by
  induction h with
  | primitive =>
    rename_i kind path
    rw [Block.path] at hl
    cases kind <;> simp only [Block.emit, Value.require, hl]
  | flat =>
    rw [Block.path] at hl
    simp only [Block.emit, Value.requireArray, Value.require, hl]
  | records =>
    rw [Block.path] at hl
    simp only [Block.emit, Value.requireArray, Value.require, hl]
  | slot _ hb _ _ ih =>
    exact Block.emit_discriminator_congr hl (forall_options_ofSlot rfl fun block hblock =>
      ih block hblock (Value.lookup_congr hl (hb block hblock)))
  | union _ _ _ hb _ _ ih =>
    exact Block.emit_discriminator_congr hl fun option ho block hblock =>
      ih option ho block hblock (Value.lookup_congr hl (hb option ho block hblock))

end Positional
