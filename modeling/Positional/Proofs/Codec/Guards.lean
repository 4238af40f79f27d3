import Positional.Proofs.Codec.Streams
import Positional.Proofs.Program.Every
import Positional.Proofs.Program.Failures
import Positional.Proofs.Program.ReadingSteps

/-!
# Unknown kinds

A program may name kinds that do not exist. Both sides come to such a block before they complain, and
then the block does nothing else: the writer has written what the blocks before it write, the reader
stands where they stopped, and the documents are as they left them. The machines of `Writing.step`
and `Reading.step` say what it is to come to a block.
-/

namespace Positional

open Emission (failsAs_ofBytes failsAs_fail)

-- ---------------------------------------------------------------------------
-- What a block complains of
-- ---------------------------------------------------------------------------

namespace Block

/-- The check of its kind that a block makes first. Arrays of objects have no kind. -/
def check : Block → Except Error Unit
  | primitive kind _ => kind.check
  | array element _ _ => element.check
  | discriminator kind _ _ _ => kind.check

/-- A primitive, a flat array or a discriminator whose kind is the name of none. -/
inductive Unknown (name : String) : Block → Prop
  | primitive : Unknown name (.primitive (.unknown name) p)
  | array {inner : Program} : Unknown name (.array (.scalar (.unknown name)) inner p)
  | discriminator : Unknown name (.discriminator (.unknown name) options field p)

theorem check_eq_unknownKind_iff {block : Block} :
    block.check = .error (.unknownKind name) ↔ block.Unknown name := by
  constructor
  · intro h
    cases block with
    | primitive kind path => cases kind <;> cases h; exact .primitive
    | array element inner path =>
      cases element with
      | object => cases h
      | scalar kind => cases kind <;> cases h; exact .array
    | discriminator kind options field path => cases kind <;> cases h; exact .discriminator
  · rintro ⟨⟩ <;> rfl

theorem failsAs_lead (block : Block) (data : Value) :
    (block.lead data).FailsAs fun error => error.ofDocument = true ∨ block.check = .error error := by
  cases block with
  | primitive kind path =>
    cases kind with
    | null => exact failsAs_ofBytes []
    | unknown name => exact failsAs_fail (.inr rfl)
    | _ =>
      simp only [lead, emit]
      cases hr : data.require path with
      | error error => exact failsAs_fail (.inl (Value.require_error hr))
      | ok value => exact Kind.failsAs_emit _ _ _
  | array element inner path =>
    cases element with
    | object =>
      rw [lead]
      split
      · exact failsAs_ofBytes _
      · rename_i hr
        exact failsAs_fail (.inl (Value.requireArray_error hr))
    | scalar kind =>
      rw [lead, emit]
      · split
        · rename_i hc
          exact failsAs_fail (.inr hc)
        · rename_i hr
          exact failsAs_fail (.inl (Value.requireArray_error hr))
        · exact (failsAs_ofBytes _).append (failsAs_emitElements kind path _)
      all_goals simp
  | discriminator kind options field path =>
    rw [lead]
    split
    · rename_i hc
      exact failsAs_fail (.inr hc)
    · rename_i hr
      exact failsAs_fail (.inl (Value.discriminatorTag_error hr))
    · exact kind.failsAs_emit _ _

theorem lead_of_unknown (h : Unknown name block) (data : Value) :
    block.lead data = .fail (.unknownKind name) := by
  cases h <;> rfl

end Block

-- ---------------------------------------------------------------------------
-- The step that fails
-- ---------------------------------------------------------------------------

namespace Writing

variable {written : Bytes}

/-- Before a block of an unknown kind, whatever the document is. -/
def MeetsUnknown (name : String) (writing : Writing) : Prop :=
  ∃ block data work, writing.work = (block, data) :: work ∧ Block.Unknown name block

theorem step_of_meetsUnknown (h : MeetsUnknown name writing) :
    writing.step = (.error (.unknownKind name), writing) := by
  obtain ⟨written, _⟩ := writing
  obtain ⟨block, data, work, rfl, hu⟩ := h
  rw [step_error (Block.lead_of_unknown hu data), List.append_nil]

theorem meetsUnknown_of_step (h : writing.step = (.error (.unknownKind name), last)) :
    MeetsUnknown name writing := by
  obtain ⟨written, work⟩ := writing
  cases work with
  | nil => cases h
  | cons item work =>
    obtain ⟨block, data⟩ := item
    cases hl : block.lead data with
    | mk bytes failure =>
      cases failure with
      | none =>
        rw [step_ok hl] at h
        cases h
      | some error =>
        rw [step_error hl] at h
        cases h
        have hfails := Block.failsAs_lead block data _ (congrArg Emission.failure hl)
        have hcheck := hfails.resolve_left (by simp [Error.ofDocument])
        exact ⟨block, data, work, rfl, Block.check_eq_unknownKind_iff.mp hcheck⟩

/-- Writing fails for an unknown kind when the machine comes to a block that has it. -/
theorem emitAll_unknownKind_iff : Block.emitAll program data = ⟨written, some (.unknownKind name)⟩ ↔
    ∃ state, Reaches step (start program data) state ∧ MeetsUnknown name state ∧
      state.written = written := by
  rw [emitAll_error_iff]
  constructor
  · rintro ⟨last, ⟨before, hb, hstep⟩, rfl⟩
    have hmeets := meetsUnknown_of_step hstep
    rw [step_of_meetsUnknown hmeets] at hstep
    cases hstep
    exact ⟨_, hb, hmeets, rfl⟩
  · rintro ⟨state, hr, hmeets, rfl⟩
    exact ⟨state, ⟨state, hr, step_of_meetsUnknown hmeets⟩, rfl⟩

end Writing

namespace Reading

variable {cursor : Cursor}

/-- Before a block of an unknown kind, wherever the cursor is. -/
def MeetsUnknown (name : String) (reading : Reading) : Prop :=
  ∃ block work, reading.work = block :: work ∧ Block.Unknown name block

theorem step_of_meetsUnknown (limits : Limits) (h : MeetsUnknown name reading) :
    step limits reading = (.error (.unknownKind name), reading) := by
  obtain ⟨cursor, data, _, outer⟩ := reading
  obtain ⟨block, work, rfl, hu⟩ := h
  cases hu <;> rfl

theorem stepBlock_error (h : (stepBlock limits block rest).run reading = (.error error, last)) :
    error.ofWire = true ∨ error = .depthExceeded limits.depth ∨ block.check = .error error := by
  have hkind : ∀ {kind : Kind}, kind.Complains error →
      error.ofWire = true ∨ error = .depthExceeded limits.depth ∨ kind.check = .error error :=
    fun hc => hc.imp_right .inr
  cases block with
  | primitive kind path =>
    rcases take_bind_error.mp h with ⟨after, hr, -⟩ | ⟨value, after, -, h⟩
    · exact hkind (kind.complains_read _ _ _ hr)
    · cases h
  | array element inner path =>
    cases element with
    | scalar kind =>
      rcases take_bind_error.mp h with ⟨after, hr, -⟩ | ⟨_, after, -, h⟩
      · exact hkind (kind.complains_check _ _ _ hr)
      rcases take_bind_error.mp h with ⟨after, hr, -⟩ | ⟨count, after, -, h⟩
      · exact .inl (Reader.wireOnly_elementCount limits _ _ _ hr)
      rcases take_bind_error.mp h with ⟨after, hr, -⟩ | ⟨items, after, -, h⟩
      · exact hkind (Reader.complains_elements kind count _ _ _ hr)
      · cases h
    | object =>
      rcases take_bind_error.mp h with ⟨after, hr, -⟩ | ⟨count, after, -, h⟩
      · exact .inl (Reader.wireOnly_elementCount limits _ _ _ hr)
      · rw [get_bind] at h
        split at h
        · cases h
          exact .inr (.inl rfl)
        · cases h
  | discriminator kind options field path =>
    rcases take_bind_error.mp h with ⟨after, hr, -⟩ | ⟨tag, after, -, h⟩
    · exact hkind (kind.complains_read _ _ _ hr)
    · split at h <;> cases h

theorem meetsUnknown_of_step (h : step limits reading = (.error (.unknownKind name), last)) :
    MeetsUnknown name reading := by
  obtain ⟨cursor, data, work, outer⟩ := reading
  cases work with
  | nil => cases outer <;> cases h
  | cons block rest =>
    have hcheck := ((stepBlock_error h).resolve_left (by simp [Error.ofWire])).resolve_left (by simp)
    exact ⟨block, rest, rfl, Block.check_eq_unknownKind_iff.mp hcheck⟩

/-- Reading fails for an unknown kind when the machine comes to a block that has it. -/
theorem readAllOver_unknownKind_iff :
    (Block.readAllOver limits program 0 root).run cursor = (.error (.unknownKind name), last) ↔
      ∃ state, Reaches (step limits) (start program root cursor) state ∧ MeetsUnknown name state ∧
        state.cursor = last := by
  rw [readAllOver_error_iff]
  constructor
  · rintro ⟨after, ⟨before, hb, hstep⟩, rfl⟩
    have hmeets := meetsUnknown_of_step hstep
    rw [step_of_meetsUnknown limits hmeets] at hstep
    cases hstep
    exact ⟨_, hb, hmeets, rfl⟩
  · rintro ⟨state, hr, hmeets, rfl⟩
    exact ⟨state, ⟨state, hr, step_of_meetsUnknown limits hmeets⟩, rfl⟩

end Reading

-- ---------------------------------------------------------------------------
-- Programs without unknown kinds
-- ---------------------------------------------------------------------------

/-- A block and the blocks in it have kinds that exist. -/
abbrev Block.Checked : Block → Prop :=
  Block.Every fun block => block.check = .ok ()

namespace Block

theorem Checked.not_unknown {block : Block} (h : block.Checked) : ¬ Unknown name block := by
  intro hu
  cases h.test.symm.trans (check_eq_unknownKind_iff.mpr hu)

theorem Checked.inner {inner : Program} (h : Checked (.array element inner p)) :
    ∀ block ∈ inner, Checked block := by
  cases h with
  | array _ hi => exact hi

theorem Checked.body (h : Checked (.discriminator kind options field p)) (tag : Value) :
    ∀ block ∈ body options tag, Checked block := by
  cases h with
  | discriminator _ ho =>
    rw [Block.body, select]
    cases hf : options.find? fun option => option.1.matchesValue tag with
    | none => nofun
    | some option => exact ho option (List.mem_of_find?_eq_some hf)

theorem Checked.follow {block : Block} (h : block.Checked) (data : Value) :
    ∀ item ∈ block.follow data, Checked item.1 := by
  intro item hi
  cases block with
  | primitive kind path => cases hi
  | array element inner path =>
    cases element with
    | scalar kind => cases hi
    | object =>
      obtain ⟨element, -, hi⟩ := List.mem_flatMap.mp hi
      obtain ⟨block, hb, rfl⟩ := List.mem_map.mp hi
      exact h.inner block hb
  | discriminator kind options field path =>
    obtain ⟨block, hb, rfl⟩ := List.mem_map.mp hi
    exact h.body _ block hb

end Block

namespace Writing

def Known (writing : Writing) : Prop :=
  ∀ item ∈ writing.work, Block.Checked item.1

theorem Known.step {writing : Writing} (h : writing.Known) (hstep : writing.step = (.ok (), next)) :
    next.Known := by
  obtain ⟨written, work⟩ := writing
  cases work with
  | nil =>
    cases hstep
    exact h
  | cons item work =>
    obtain ⟨block, data⟩ := item
    obtain ⟨hblock, hwork⟩ := List.forall_mem_cons.mp h
    cases hl : block.lead data with
    | mk bytes failure =>
      cases failure with
      | some error =>
        rw [step_error hl] at hstep
        cases hstep
      | none =>
        rw [step_ok hl] at hstep
        cases hstep
        exact List.forall_mem_append.mpr ⟨Block.Checked.follow hblock data, hwork⟩

theorem Known.reaches {first last : Writing} (h : first.Known) (hr : Reaches Writing.step first last) :
    last.Known := by
  induction hr with
  | refl => exact h
  | tail _ hstep ih => exact ih.step hstep

theorem Known.not_meetsUnknown {writing : Writing} (h : writing.Known) :
    ¬ writing.MeetsUnknown name := by
  rintro ⟨block, data, work, hwork, hu⟩
  exact (h (block, data) (hwork ▸ List.mem_cons_self ..)).not_unknown hu

end Writing

namespace Reading

/-- All that is still to be read, of the element at hand and of what is around it, has kinds that
exist. -/
structure Known (reading : Reading) : Prop where
  work : ∀ block ∈ reading.work, Block.Checked block
  inner : ∀ array ∈ reading.outer, ∀ block ∈ array.inner, Block.Checked block
  after : ∀ array ∈ reading.outer, ∀ block ∈ array.work, Block.Checked block

theorem known_resume (cursor : Cursor) {first : Suspended} {outer : List Suspended}
    (hinner : ∀ array ∈ first :: outer, ∀ block ∈ array.inner, Block.Checked block)
    (hafter : ∀ array ∈ first :: outer, ∀ block ∈ array.work, Block.Checked block) :
    (resume cursor first outer).Known := by
  obtain ⟨path, inner, left, done, data, work⟩ := first
  rw [List.forall_mem_cons] at hinner hafter
  cases left with
  | zero => exact ⟨hafter.1, hinner.2, hafter.2⟩
  | succ left =>
    exact ⟨hinner.1, List.forall_mem_cons.mpr hinner, List.forall_mem_cons.mpr hafter⟩

theorem Known.step {reading : Reading} (h : reading.Known)
    (hstep : Reading.step limits reading = (.ok (), next)) : next.Known := by
  obtain ⟨cursor, data, work, outer⟩ := reading
  obtain ⟨hwork, hinner, hafter⟩ := h
  cases work with
  | nil =>
    cases outer with
    | nil =>
      cases hstep
      exact ⟨hwork, hinner, hafter⟩
    | cons array outer =>
      cases hstep
      rw [List.forall_mem_cons] at hinner hafter
      exact known_resume cursor (List.forall_mem_cons.mpr hinner) (List.forall_mem_cons.mpr hafter)
  | cons block rest =>
    obtain ⟨hblock, hrest⟩ := List.forall_mem_cons.mp hwork
    cases block with
    | primitive kind path =>
      obtain ⟨after, whole, rfl⟩ := stepBlock_primitive_ok hstep
      exact ⟨hrest, hinner, hafter⟩
    | array element inner path =>
      cases element with
      | scalar kind =>
        obtain ⟨after, whole, rfl⟩ := stepBlock_flat_ok hstep
        exact ⟨hrest, hinner, hafter⟩
      | object =>
        obtain ⟨count, after, rfl⟩ := stepBlock_records_ok hstep
        exact known_resume after (List.forall_mem_cons.mpr ⟨hblock.inner, hinner⟩)
          (List.forall_mem_cons.mpr ⟨hrest, hafter⟩)
    | discriminator kind options field path =>
      obtain ⟨tag, after, whole, rfl⟩ := stepBlock_discriminator_ok hstep
      exact ⟨List.forall_mem_append.mpr ⟨hblock.body tag, hrest⟩, hinner, hafter⟩

theorem Known.reaches {first last : Reading} (h : first.Known)
    (hr : Reaches (Reading.step limits) first last) : last.Known := by
  induction hr with
  | refl => exact h
  | tail _ hstep ih => exact ih.step hstep

theorem Known.not_meetsUnknown {reading : Reading} (h : reading.Known) :
    ¬ reading.MeetsUnknown name := by
  rintro ⟨block, work, hwork, hu⟩
  exact (h.work block (hwork ▸ List.mem_cons_self ..)).not_unknown hu

end Reading

-- ---------------------------------------------------------------------------
-- Whole programs
-- ---------------------------------------------------------------------------

namespace Program

variable {program : Program}

theorem read_unknownKind_iff :
    (program.read options root).run cursor = (.error (.unknownKind name), last) ↔
      ∃ state, Reaches (Reading.step options.toLimits) (Reading.start program root cursor) state ∧
        state.MeetsUnknown name ∧ state.cursor = last := by
  rw [← readOver_eq_read, readOver, Reader.bind_error, Reading.readAllOver_unknownKind_iff]
  refine or_iff_left ?_
  rintro ⟨data, after, -, htail⟩
  rw [Reader.run_bind_ok (Reader.get_ok.mpr ⟨rfl, rfl⟩)] at htail
  split at htail <;> cases htail

theorem write_unknownKind_iff :
    (program.write data).run buffer = (.error (.unknownKind name), buffer ++ written) ↔
      ∃ state, Reaches Writing.step (Writing.start program data) state ∧ state.MeetsUnknown name ∧
        state.written = written := by
  rw [← Writing.emitAll_unknownKind_iff, run_write, encode_eq]
  cases Block.emitAll program data with
  | mk bytes failure =>
    cases failure with
    | none =>
      constructor
      · intro heq
        cases heq
      · intro heq
        cases heq
    | some error =>
      constructor
      · intro heq
        obtain ⟨herror, hbytes⟩ := Prod.mk.inj heq
        cases herror
        obtain rfl : bytes = written := List.append_cancel_left hbytes
        rfl
      · intro heq
        cases heq
        rfl

theorem encode_of_unknown (hb : block ∈ program) (hu : Block.Unknown name block) (data : Value) :
    ∃ error, program.encode data = .error error := by
  cases h : program.encode data with
  | error error => exact ⟨error, rfl⟩
  | ok bytes =>
    obtain ⟨written, hw⟩ := Block.emitAll_succeeds.mp ⟨bytes, encode_ok.mp h⟩ block hb
    rw [Writing.emit_eq_lead, Block.lead_of_unknown hu, Emission.fail_append] at hw
    cases hw

theorem readAll_of_unknown (hb : block ∈ program) (hu : Block.Unknown name block) :
    (Block.readAll limits program depth).run cursor ≠ (.ok writes, last) := by
  intro h
  induction program generalizing cursor writes last with
  | nil => cases hb
  | cons first rest ih =>
    obtain ⟨own, mid, hown, hrest⟩ := Reader.bind_ok.mp h
    obtain ⟨others, after, hothers, -⟩ := Reader.bind_ok.mp hrest
    rcases List.mem_cons.mp hb with rfl | hb
    · cases hu <;> cases hown
    · exact ih hb hothers

theorem decode_of_unknown (hb : block ∈ program) (hu : Block.Unknown name block)
    (options : DecodeOptions) (buffer : Bytes) :
    ∃ error, program.decode options buffer = .error error := by
  cases h : program.decode options buffer with
  | error error => exact ⟨error, rfl⟩
  | ok y =>
    obtain ⟨writes, last, hread, -⟩ := decode_ok h
    exact absurd hread (readAll_of_unknown hb hu)

theorem encode_of_known (h : ∀ block ∈ program, Block.Checked block) (data : Value) (name : String) :
    program.encode data ≠ .error (.unknownKind name) := by
  intro he
  have hemit : Block.emitAll program data = ⟨(Block.emitAll program data).bytes, some (.unknownKind name)⟩ := by
    rw [encode_eq, Emission.toExcept] at he
    split at he
    · cases he
    · rename_i failure hf
      cases he
      rw [← hf]
  obtain ⟨state, hr, hmeets, -⟩ := Writing.emitAll_unknownKind_iff.mp hemit
  have hstart : (Writing.start program data).Known := by
    intro item hi
    obtain ⟨block, hb, rfl⟩ := List.mem_map.mp hi
    exact h block hb
  exact (hstart.reaches hr).not_meetsUnknown hmeets

theorem decode_of_known (h : ∀ block ∈ program, Block.Checked block) (options : DecodeOptions)
    (buffer : Bytes) (name : String) : program.decode options buffer ≠ .error (.unknownKind name) := by
  intro he
  have hread : (program.read options (.object [])).run (Cursor.start buffer) =
      (.error (.unknownKind name), ((program.read options (.object [])).run (Cursor.start buffer)).2) :=
    Prod.ext he rfl
  obtain ⟨state, hr, hmeets, -⟩ := read_unknownKind_iff.mp hread
  have hstart : (Reading.start program (.object []) (Cursor.start buffer)).Known := ⟨h, nofun, nofun⟩
  exact (hstart.reaches hr).not_meetsUnknown hmeets

/-- Both sides fail for an unknown kind just when they come, with no failure before, to a primitive, a
flat array or a discriminator that has it; the step that they fail in changes nothing: no byte is
written or consumed and nothing is assigned, whatever the document or the cursor. So a program with
such a block at its top never succeeds, and one without unknown kinds never complains of one. -/
theorem unknownKind_iff_reaches (program : Program) :
    (∀ (data : Value) (buffer written : Bytes) (name : String),
      (program.write data).run buffer = (.error (.unknownKind name), buffer ++ written) ↔
        ∃ state, Reaches Writing.step (Writing.start program data) state ∧
          state.MeetsUnknown name ∧ state.written = written) ∧
    (∀ (options : DecodeOptions) (root : Value) (cursor last : Cursor) (name : String),
      (program.read options root).run cursor = (.error (.unknownKind name), last) ↔
        ∃ state, Reaches (Reading.step options.toLimits) (Reading.start program root cursor) state ∧
          state.MeetsUnknown name ∧ state.cursor = last) ∧
    (∀ (state : Writing) (name : String), state.MeetsUnknown name →
      state.step = (.error (.unknownKind name), state)) ∧
    (∀ (limits : Limits) (state : Reading) (name : String), state.MeetsUnknown name →
      state.step limits = (.error (.unknownKind name), state)) ∧
    (∀ block ∈ program, ∀ name, Block.Unknown name block →
      (∀ data, ∃ error, program.encode data = .error error) ∧
      ∀ options buffer, ∃ error, program.decode options buffer = .error error) ∧
    ((∀ block ∈ program, Block.Checked block) →
      (∀ data name, program.encode data ≠ .error (.unknownKind name)) ∧
      ∀ options buffer name, program.decode options buffer ≠ .error (.unknownKind name)) :=
  ⟨fun _ _ _ _ => write_unknownKind_iff, fun _ _ _ _ _ => read_unknownKind_iff,
    fun _ _ h => Writing.step_of_meetsUnknown h,
    fun limits _ _ h => Reading.step_of_meetsUnknown limits h,
    fun _ hb _ hu => ⟨encode_of_unknown hb hu, decode_of_unknown hb hu⟩,
    fun h => ⟨encode_of_known h, decode_of_known h⟩⟩

/-- The unknown kind stands in an option below an array: it is met behind the tag of the second
element, and not at all when the array is empty. -/
theorem unknownKind_iff_reaches_option :
    let program : Program := [.array .object
      [.discriminator .uint [(.int 1, [.primitive (.unknown "never") ["x"]])] "t" []] ["items"]]
    let data : Value := .object [("items", .array [.object [("t", .uint 0)], .object [("t", .uint 1)]])]
    (∃ state, Reaches Writing.step (Writing.start program data) state ∧
      state.MeetsUnknown "never" ∧ state.written = [2, 0, 1] ∧
      state.step = (.error (.unknownKind "never"), state)) ∧
    (∃ state, Reaches (Reading.step {}) (Reading.start program (.object []) (.start [2, 0, 1, 9])) state ∧
      state.MeetsUnknown "never" ∧ state.cursor = ⟨3, [9]⟩ ∧
      state.step {} = (.error (.unknownKind "never"), state)) ∧
    program.encode (.object [("items", .array [])]) = .ok [0] ∧
    (∃ error, Program.encode [.array (.scalar (.unknown "never")) [] ["a"]] (.object []) = .error error) ∧
    Program.decode [.primitive .string ["s"]] {} [] ≠ .error (.unknownKind "never") := by
  intro program data
  obtain ⟨hwrite, hread, hwriting, hreading, -, -⟩ := unknownKind_iff_reaches program
  have hemit : Block.emitAll program data = ⟨[2, 0, 1], some (.unknownKind "never")⟩ := by
    decide +kernel
  obtain ⟨state, hr, hmeets, hwritten⟩ := (hwrite data [] [2, 0, 1] "never").mp (by
    rw [run_write, encode_eq, hemit]
    rfl)
  obtain ⟨other, hother, hmeets', hcursor⟩ :=
    (hread {} (.object []) (.start [2, 0, 1, 9]) ⟨3, [9]⟩ "never").mp rfl
  obtain ⟨-, -, -, -, hfails, -⟩ := unknownKind_iff_reaches [.array (.scalar (.unknown "never")) [] ["a"]]
  obtain ⟨-, -, -, -, -, hknown⟩ := unknownKind_iff_reaches [.primitive .string ["s"]]
  refine ⟨⟨state, hr, hmeets, hwritten, hwriting state _ hmeets⟩,
    ⟨other, hother, hmeets', hcursor, hreading {} other _ hmeets'⟩,
    encode_ok.mpr (by decide +kernel),
    (hfails _ (List.mem_cons_self ..) _ .array).1 _, (hknown ?_).2 {} [] _⟩
  exact List.forall_mem_singleton.mpr (.primitive rfl)

end Program

end Positional
