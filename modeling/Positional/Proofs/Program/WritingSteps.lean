import Mathlib.Logic.Relation
import Positional.Proofs.Program.Emitting

/-!
# Writing step by step

A machine that writes one block in a step and keeps a list of what it has still to write, so that the
place that a run has come to is part of its state: before a block, with some bytes written. No step
changes how the run ends (`Writing.outcome_step`), and every run ends (`Writing.settles`), so what a
program writes, and what it fails with, is what the machine comes to (`Writing.emitAll_ok_iff`,
`Writing.emitAll_error_iff`).
-/

namespace Positional

-- ---------------------------------------------------------------------------
-- Machines
-- ---------------------------------------------------------------------------

/-- A machine comes to a state if no step before it fails. -/
abbrev Reaches (step : σ → Except Error Unit × σ) : σ → σ → Prop :=
  Relation.ReflTransGen fun before after => step before = (.ok (), after)

/-- A machine comes to a step that fails. -/
def RunsInto (step : σ → Except Error Unit × σ) (state : σ) (error : Error) (last : σ) : Prop :=
  ∃ before, Reaches step state before ∧ step before = (.error error, last)

theorem RunsInto.head {step : σ → Except Error Unit × σ} (h : Reaches step first second)
    (hr : RunsInto step second error last) : RunsInto step first error last := by
  obtain ⟨before, hb, hstep⟩ := hr
  exact ⟨before, h.trans hb, hstep⟩

theorem Reaches.eq {step : σ → Except Error Unit × σ} {outcome : σ → β}
    (h : ∀ before after, step before = (.ok (), after) → outcome before = outcome after)
    (hr : Reaches step first last) : outcome first = outcome last := by
  induction hr with
  | refl => rfl
  | tail _ hstep ih => exact ih.trans (h _ _ hstep)

-- ---------------------------------------------------------------------------
-- The writer's steps
-- ---------------------------------------------------------------------------

/-- What a run of writing has written, and the blocks that it has still to write, each with the
document or the element from which it is written. -/
structure Writing where
  written : Bytes
  work : List (Block × Value)

namespace Block

/-- What a block writes by itself, without the blocks in it. -/
def lead : Block → Value → Emission
  | .array .object _ path, data =>
    match data.requireArray path with
    | .ok items => .ofBytes (Wire.varint items.length)
    | .error error => .fail error
  | .discriminator kind _ field path, data =>
    match kind.check, data.discriminatorTag path field with
    | .error error, _ => .fail error
    | .ok (), .error error => .fail error
    | .ok (), .ok (tag, tagPath) => kind.emit tagPath tag
  | block, data => block.emit data

/-- The blocks in a block that are written: those of an array for each element, those of a
discriminator from the option that the tag selects. -/
def follow : Block → Value → List (Block × Value)
  | .array .object inner path, data =>
    (data.held path).items.flatMap fun item => inner.map (·, item)
  | .discriminator _ options field path, data =>
    (body options (data.tagAt path field)).map (·, data)
  | _, _ => []

end Block

namespace Value

theorem items_of_requireArray {data : Value} {items : List Value} (h : data.requireArray path = .ok items) :
    (data.held path).items = items := by
  rw [requireArray, require] at h
  rw [held]
  cases hl : data.lookup path with
  | none =>
    rw [hl] at h
    cases h
  | some value =>
    rw [hl] at h
    cases value <;> cases h
    rfl

theorem tagAt_of_discriminatorTag {data : Value} {path : Path}
    (h : data.discriminatorTag path field = .ok found) : data.tagAt path field = found.1 := by
  rw [discriminatorTag] at h
  rw [tagAt]
  split at h
  · rename_i hp
    cases h
    rw [if_pos hp]
  · rename_i hp
    rw [if_neg hp, held]
    rw [require] at h
    cases hl : data.lookup (path.child field) with
    | none =>
      rw [hl] at h
      cases h
    | some value =>
      rw [hl] at h
      cases h
      rfl

end Value

namespace Writing

variable {written : Bytes} {work : List (Block × Value)}

def start (program : Program) (data : Value) : Writing := ⟨[], program.map (·, data)⟩

/-- Writes one block by itself. When it fails, the block and what follows it are left to be
written. -/
def step (writing : Writing) : Except Error Unit × Writing :=
  match writing.work with
  | [] => (.ok (), writing)
  | (block, data) :: work =>
    match block.lead data with
    | ⟨bytes, none⟩ => (.ok (), ⟨writing.written ++ bytes, block.follow data ++ work⟩)
    | ⟨bytes, some error⟩ => (.error error, ⟨writing.written ++ bytes, writing.work⟩)

def emitWork (work : List (Block × Value)) : Emission :=
  .concat (work.map fun item => item.1.emit item.2)

def outcome (writing : Writing) : Emission :=
  .ofBytes writing.written ++ emitWork writing.work

-- ---------------------------------------------------------------------------
-- How a run ends
-- ---------------------------------------------------------------------------

theorem emitWork_append (work others : List (Block × Value)) :
    emitWork (work ++ others) = emitWork work ++ emitWork others := by
  induction work with
  | nil => rfl
  | cons item work ih =>
    rw [List.cons_append, emitWork, List.map_cons, Emission.concat, ← emitWork, ih,
      ← Emission.append_assoc]
    rfl

theorem emitWork_program (program : Program) (data : Value) :
    emitWork (program.map (·, data)) = Block.emitAll program data := by
  induction program with
  | nil => rfl
  | cons block program ih => exact congrArg (block.emit data ++ ·) ih

theorem emitWork_elements (inner : Program) (items : List Value) :
    emitWork (items.flatMap fun item => inner.map (·, item))
      = .concat (items.map fun item => Block.emitAll inner item) := by
  induction items with
  | nil => rfl
  | cons item items ih =>
    rw [List.flatMap_cons, emitWork_append, emitWork_program, ih]
    rfl

/-- A block writes what it writes by itself and then what the blocks in it write. -/
theorem emit_eq_lead (block : Block) (data : Value) :
    block.emit data = block.lead data ++ emitWork (block.follow data) := by
  cases block with
  | primitive kind path => exact (Emission.append_empty _).symm
  | array element inner path =>
    cases element with
    | scalar kind => exact (Emission.append_empty _).symm
    | object =>
      have hcheck : Element.object.check = .ok () := rfl
      rw [Block.emit, Block.lead, hcheck]
      cases ha : data.requireArray path with
      | error error => rfl
      | ok items =>
        rw [Block.follow, Value.items_of_requireArray ha, emitWork_elements]
  | discriminator kind options field path =>
    rw [Block.emit, Block.lead, Block.follow, emitWork_program, ← Block.emitOption_eq_body]
    cases kind.check with
    | error error => rfl
    | ok =>
      cases ht : data.discriminatorTag path field with
      | error error => rfl
      | ok tag =>
        rw [Value.tagAt_of_discriminatorTag ht]

theorem outcome_start (program : Program) (data : Value) :
    (start program data).outcome = Block.emitAll program data := by
  rw [outcome, start, emitWork_program]
  exact Emission.empty_append _

theorem step_ok (h : block.lead data = ⟨bytes, none⟩) : step ⟨written, (block, data) :: work⟩ =
    (.ok (), ⟨written ++ bytes, block.follow data ++ work⟩) := by
  simp only [step, h]

theorem step_error (h : block.lead data = ⟨bytes, some error⟩) :
    step ⟨written, (block, data) :: work⟩ = (.error error, ⟨written ++ bytes, (block, data) :: work⟩) := by
  simp only [step, h]

theorem outcome_step (writing : Writing) : writing.outcome =
    match writing.step with
    | (.ok (), next) => next.outcome
    | (.error error, next) => ⟨next.written, some error⟩ := by
  obtain ⟨written, work⟩ := writing
  cases work with
  | nil => rfl
  | cons item work =>
    obtain ⟨block, data⟩ := item
    have hhead : emitWork ((block, data) :: work) =
        block.lead data ++ emitWork (block.follow data ++ work) := by
      rw [emitWork_append, ← Emission.append_assoc, ← emit_eq_lead]
      rfl
    rw [outcome, hhead, ← Emission.append_assoc]
    cases hl : block.lead data with
    | mk bytes failure =>
      cases failure with
      | none =>
        rw [step_ok hl]
        rfl
      | some error =>
        rw [step_error hl]
        rfl

theorem outcome_reaches (h : Reaches step first last) : first.outcome = last.outcome :=
  h.eq fun before after hstep => by rw [outcome_step before, hstep]

-- ---------------------------------------------------------------------------
-- Every run ends
-- ---------------------------------------------------------------------------

def Settles (writing : Writing) : Prop :=
  (∃ written, Reaches step writing ⟨written, []⟩) ∨ ∃ error last, RunsInto step writing error last

def SettlesAll (work : List (Block × Value)) : Prop :=
  ∀ written, Settles ⟨written, work⟩

theorem Settles.head (h : step first = (.ok (), second)) (hs : Settles second) : Settles first := by
  have hreach : Reaches step first second := .single h
  rcases hs with ⟨written, hs⟩ | ⟨error, last, hs⟩
  · exact .inl ⟨written, hreach.trans hs⟩
  · exact .inr ⟨error, last, hs.head hreach⟩

theorem settlesAll_cons (h : SettlesAll (block.follow data ++ work)) :
    SettlesAll ((block, data) :: work) := by
  intro written
  cases hl : block.lead data with
  | mk bytes failure =>
    cases failure with
    | none => exact .head (step_ok hl) (h _)
    | some error => exact .inr ⟨error, _, _, .refl, step_error hl⟩

theorem settlesAll_append {first : List (Block × Value)}
    (h : ∀ item ∈ first, ∀ work, SettlesAll work → SettlesAll (item :: work))
    (hw : SettlesAll work) : SettlesAll (first ++ work) := by
  induction first with
  | nil => exact hw
  | cons item first ih =>
    rw [List.forall_mem_cons] at h
    exact h.1 _ (ih h.2)

mutual

theorem settlesAll_block : (block : Block) → ∀ data work, SettlesAll work →
    SettlesAll ((block, data) :: work)
  | .primitive kind path, data, work, hw => settlesAll_cons hw
  | .array (.scalar kind) inner path, data, work, hw => settlesAll_cons hw
  | .array .object inner path, data, work, hw => by
    refine settlesAll_cons (settlesAll_append (fun item hi work hw => ?_) hw)
    obtain ⟨element, -, hi⟩ := List.mem_flatMap.mp hi
    obtain ⟨block, hb, rfl⟩ := List.mem_map.mp hi
    exact settlesAll_inner inner block hb element work hw
  | .discriminator kind options field path, data, work, hw => by
    refine settlesAll_cons (settlesAll_append (fun item hi work hw => ?_) hw)
    obtain ⟨block, hb, rfl⟩ := List.mem_map.mp hi
    exact settlesAll_options options (data.tagAt path field) block hb data work hw

theorem settlesAll_inner : (blocks : List Block) → ∀ block ∈ blocks, ∀ data work,
    SettlesAll work → SettlesAll ((block, data) :: work)
  | [] => nofun
  | first :: rest => List.forall_mem_cons.mpr ⟨settlesAll_block first, settlesAll_inner rest⟩

theorem settlesAll_options : (options : List (Tag × List Block)) → ∀ tag,
    ∀ block ∈ Block.body options tag, ∀ data work, SettlesAll work → SettlesAll ((block, data) :: work)
  | [], _ => nofun
  | (option, body) :: rest, tag => by
    rw [Block.body, Block.select, List.find?_cons]
    split
    · exact settlesAll_inner body
    · exact settlesAll_options rest tag

end

theorem settles (program : Program) (data : Value) : Settles (start program data) := by
  have hempty : SettlesAll [] := fun written => .inl ⟨written, .refl⟩
  have hwork : SettlesAll (program.map (·, data) ++ []) := by
    refine settlesAll_append (fun item hi work hw => ?_) hempty
    obtain ⟨block, -, rfl⟩ := List.mem_map.mp hi
    exact settlesAll_block block data work hw
  rw [List.append_nil] at hwork
  exact hwork []

theorem outcome_runsInto (h : RunsInto step writing error last) :
    writing.outcome = ⟨last.written, some error⟩ := by
  obtain ⟨before, hb, hstep⟩ := h
  rw [outcome_reaches hb, outcome_step, hstep]

theorem outcome_done (written : Bytes) : (Writing.mk written []).outcome = .ofBytes written :=
  Emission.append_empty _

theorem emitAll_ok_iff : Block.emitAll program data = .ofBytes written ↔
    Reaches step (start program data) ⟨written, []⟩ := by
  rw [← outcome_start]
  constructor
  · intro h
    rcases settles program data with ⟨last, hs⟩ | ⟨error, last, hs⟩
    · rw [outcome_reaches hs, outcome_done, Emission.ofBytes_inj] at h
      exact h ▸ hs
    · rw [outcome_runsInto hs] at h
      cases h
  · intro h
    rw [outcome_reaches h, outcome_done]

/-- The run of a program fails, with some bytes written, when the machine comes to a step that fails
and leaves these bytes. -/
theorem emitAll_error_iff : Block.emitAll program data = ⟨written, some error⟩ ↔
    ∃ last, RunsInto step (start program data) error last ∧ last.written = written := by
  rw [← outcome_start]
  constructor
  · intro h
    rcases settles program data with ⟨last, hs⟩ | ⟨failure, last, hs⟩
    · rw [outcome_reaches hs, outcome_done] at h
      cases h
    · rw [outcome_runsInto hs] at h
      cases h
      exact ⟨last, hs, rfl⟩
  · rintro ⟨last, hs, rfl⟩
    exact outcome_runsInto hs

end Writing

end Positional
