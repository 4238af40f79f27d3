import Positional.Proofs.Codec.Branches
import Positional.Proofs.Codec.Overlay
import Positional.Proofs.Program.WritingSteps

/-!
# Reading step by step

A machine that reads one block in a step. Its state has the cursor and every document under way: the
one at hand, and for each array of objects around it the document that the array becomes part of. A
step that fails leaves a state too, with what it had done by then. No step changes how the run ends
(`Reading.outcome_step`), and every run ends (`Reading.settles`), so the document that a program
reads, or its failure and the place of it, is what the machine comes to
(`Reading.readAllOver_ok_iff`, `Reading.readAllOver_error_iff`).
-/

namespace Positional

namespace Block

theorem readAllOver_append (limits : Limits) (first second : Program) (depth : Nat) (data : Value) :
    readAllOver limits (first ++ second) depth data =
      readAllOver limits first depth data >>= readAllOver limits second depth := by
  induction first generalizing data with
  | nil => rw [List.nil_append, readAllOver, pure_bind]
  | cons block first ih =>
    rw [List.cons_append, readAllOver, readAllOver, bind_assoc]
    exact bind_congr ih

theorem readOptionOver_eq_body (limits : Limits) (options : List (Tag × Program)) (tag : Value)
    (depth : Nat) (data : Value) : readOptionOver limits options tag depth data =
      readAllOver limits (body options tag) depth data := by
  rw [readOptionOver_eq, readAllOver_eq, readOption_eq_body]

end Block

-- ---------------------------------------------------------------------------
-- The reader's steps
-- ---------------------------------------------------------------------------

/-- An array of objects that waits for the element that is being read. -/
structure Suspended where
  path : Path
  inner : Program
  /-- How many elements come after that one. -/
  left : Nat
  /-- The elements before it, last first. -/
  done : List Value
  data : Value
  work : Program

/-- Where a run of reading stands, the document or the element that it reads, with the blocks that it
has still to read of it, and the arrays around the element, innermost first. -/
structure Reading where
  cursor : Cursor
  data : Value
  work : Program
  outer : List Suspended

namespace Reading

variable {cursor : Cursor} {data : Value} {work rest : Program} {outer : List Suspended}

def start (program : Program) (root : Value) (cursor : Cursor) : Reading :=
  ⟨cursor, root, program, []⟩

/-- Goes on with an array of objects: to the next element, or behind the array when it has all. -/
def resume (cursor : Cursor) (array : Suspended) (outer : List Suspended) : Reading :=
  match array.left with
  | 0 => ⟨cursor, .assign (.array array.done.reverse) array.data array.path, array.work, outer⟩
  | left + 1 => ⟨cursor, .object [], array.inner, { array with left := left } :: outer⟩

/-- Computations on the state of a run. What they did before a failure stays done. -/
abbrev Change := ExceptT Error (StateM Reading)

def take (reader : Reader α) : Change α := fun reading =>
  ((reader.run reading.cursor).1, { reading with cursor := (reader.run reading.cursor).2 })

def assign (value : Value) (path : Path) : Change Unit :=
  modify fun reading => { reading with data := value.assign reading.data path }

def goOn (work : Program) : Change Unit :=
  modify fun reading => { reading with work := work }

/-- Reads one block; an array of objects and an option are only entered. -/
def stepBlock (limits : Limits) : Block → (rest : Program) → Change Unit
  | .primitive kind path, rest => do
    assign (← take kind.read) path
    goOn rest
  | .array (.scalar kind) _ path, rest => do
    take kind.check
    let count ← take (Reader.elementCount limits)
    assign (.array (← take (Reader.elements kind count))) path
    goOn rest
  | .array .object inner path, rest => do
    let count ← take (Reader.elementCount limits)
    let reading ← get
    if limits.depth < reading.outer.length + 1 then throw (.depthExceeded limits.depth)
    else set (resume reading.cursor ⟨path, inner, count, [], reading.data, rest⟩ reading.outer)
  | .discriminator kind options field path, rest => do
    let tag ← take kind.read
    if Block.tellsPresence field then goOn (Block.body options tag ++ rest)
    else
      assign tag (path.child field)
      goOn (Block.body options tag ++ rest)

/-- Reads one block, or goes on behind an element that is complete. -/
def step (limits : Limits) (reading : Reading) : Except Error Unit × Reading :=
  match reading.work, reading.outer with
  | block :: rest, _ => (stepBlock limits block rest).run reading
  | [], array :: outer =>
    (.ok (), resume reading.cursor { array with done := reading.data :: array.done } outer)
  | [], [] => (.ok (), reading)

-- ---------------------------------------------------------------------------
-- What a step can do
-- ---------------------------------------------------------------------------

section

variable {reader : Reader α} {next : α → Change Unit}

theorem run_take (reader : Reader α) (reading : Reading) : (take reader).run reading =
    ((reader.run reading.cursor).1, { reading with cursor := (reader.run reading.cursor).2 }) := rfl

theorem take_ok {reading : Reading} (h : reader.run reading.cursor = (.ok value, after)) :
    (take reader >>= next).run reading = (next value).run { reading with cursor := after } :=
  Reader.run_bind_ok (by rw [run_take, h])

theorem take_error {reading : Reading} (h : reader.run reading.cursor = (.error error, after)) :
    (take reader >>= next).run reading = (.error error, { reading with cursor := after }) :=
  Reader.run_bind_error (by rw [run_take, h])

theorem take_bind_ok {reading : Reading} : (take reader >>= next).run reading = (.ok (), last) ↔
    ∃ value after, reader.run reading.cursor = (.ok value, after) ∧
      (next value).run { reading with cursor := after } = (.ok (), last) := by
  constructor
  · intro hrun
    rcases h : reader.run reading.cursor with ⟨error | value, after⟩
    · rw [take_error h] at hrun
      cases hrun
    · exact ⟨value, after, rfl, take_ok h ▸ hrun⟩
  · rintro ⟨value, after, h, hnext⟩
    rw [take_ok h, hnext]

theorem take_bind_error {reading : Reading} :
    (take reader >>= next).run reading = (.error error, last) ↔
      (∃ after, reader.run reading.cursor = (.error error, after) ∧
        last = { reading with cursor := after }) ∨
      ∃ value after, reader.run reading.cursor = (.ok value, after) ∧
        (next value).run { reading with cursor := after } = (.error error, last) := by
  constructor
  · intro hrun
    rcases h : reader.run reading.cursor with ⟨failure | value, after⟩
    · rw [take_error h] at hrun
      cases hrun
      exact .inl ⟨after, rfl, rfl⟩
    · exact .inr ⟨value, after, rfl, take_ok h ▸ hrun⟩
  · rintro (⟨after, h, rfl⟩ | ⟨value, after, h, hnext⟩)
    · exact take_error h
    · rw [take_ok h, hnext]

end

theorem get_bind (next : Reading → Change Unit) (reading : Reading) :
    (get >>= next).run reading = (next reading).run reading := rfl

theorem stepBlock_primitive_ok
    (h : (stepBlock limits (.primitive kind path) rest).run ⟨cursor, data, work, outer⟩
      = (.ok (), next)) : ∃ after whole, next = ⟨after, whole, rest, outer⟩ := by
  obtain ⟨value, after, -, hnext⟩ := take_bind_ok.mp h
  cases hnext
  exact ⟨_, _, rfl⟩

theorem stepBlock_flat_ok {inner : Program}
    (h : (stepBlock limits (.array (.scalar kind) inner path) rest).run ⟨cursor, data, work, outer⟩
      = (.ok (), next)) : ∃ after whole, next = ⟨after, whole, rest, outer⟩ := by
  obtain ⟨_, checked, -, h⟩ := take_bind_ok.mp h
  obtain ⟨count, counted, -, h⟩ := take_bind_ok.mp h
  obtain ⟨items, after, -, hnext⟩ := take_bind_ok.mp h
  cases hnext
  exact ⟨_, _, rfl⟩

theorem stepBlock_records_ok {inner : Program}
    (h : (stepBlock limits (.array .object inner path) rest).run ⟨cursor, data, work, outer⟩
      = (.ok (), next)) :
    ∃ count after, next = resume after ⟨path, inner, count, [], data, rest⟩ outer := by
  obtain ⟨count, after, -, h⟩ := take_bind_ok.mp h
  rw [get_bind] at h
  split at h
  · cases h
  · cases h
    exact ⟨_, _, rfl⟩

theorem stepBlock_discriminator_ok
    (h : (stepBlock limits (.discriminator kind options field path) rest).run
      ⟨cursor, data, work, outer⟩ = (.ok (), next)) :
    ∃ tag after whole, next = ⟨after, whole, Block.body options tag ++ rest, outer⟩ := by
  obtain ⟨tag, after, -, h⟩ := take_bind_ok.mp h
  split at h
  · cases h
    exact ⟨_, _, _, rfl⟩
  · cases h
    exact ⟨_, _, _, rfl⟩

-- ---------------------------------------------------------------------------
-- How a run ends
-- ---------------------------------------------------------------------------

def complete (limits : Limits) (array : Suspended) (depth : Nat) : Reader Value := do
  let items ← Reader.timesAfter
    (Block.readAllOver limits array.inner (depth + 1) (.object [])) array.done array.left
  Block.readAllOver limits array.work depth (.assign (.array items) array.data array.path)

/-- What remains of a run when the element at hand is complete. -/
def finish (limits : Limits) : List Suspended → Value → Reader Value
  | [], data => return data
  | array :: outer, data => do
    let whole ← complete limits { array with done := data :: array.done } outer.length
    finish limits outer whole

def outcome (limits : Limits) (reading : Reading) : Except Error Value × Cursor :=
  (Block.readAllOver limits reading.work reading.outer.length reading.data >>=
    finish limits reading.outer).run reading.cursor

theorem finish_cons (limits : Limits) (array : Suspended) (outer : List Suspended) :
    finish limits (array :: outer) = fun data =>
      complete limits { array with done := data :: array.done } outer.length >>= finish limits outer :=
  rfl

theorem outcome_resume (limits : Limits) (cursor : Cursor) (array : Suspended)
    (outer : List Suspended) : (resume cursor array outer).outcome limits =
      (complete limits array outer.length >>= finish limits outer).run cursor := by
  obtain ⟨path, inner, left, done, data, work⟩ := array
  cases left with
  | zero =>
    rw [complete, Reader.timesAfter, pure_bind]
    rfl
  | succ left =>
    rw [resume, outcome, finish_cons]
    simp only [complete, Reader.timesAfter, bind_assoc, List.length_cons]

theorem outcome_cons (limits : Limits) (cursor : Cursor) (data : Value) (block : Block)
    (rest : Program) (outer : List Suspended) :
    outcome limits ⟨cursor, data, block :: rest, outer⟩ =
      (block.readOver limits outer.length data >>= fun whole =>
        Block.readAllOver limits rest outer.length whole >>= finish limits outer).run cursor := by
  rw [outcome, Block.readAllOver, bind_assoc]

theorem outcome_append (limits : Limits) (cursor : Cursor) (data : Value) (first rest : Program)
    (outer : List Suspended) : outcome limits ⟨cursor, data, first ++ rest, outer⟩ =
      (Block.readAllOver limits first outer.length data >>= fun whole =>
        Block.readAllOver limits rest outer.length whole >>= finish limits outer).run cursor := by
  rw [outcome, Block.readAllOver_append, bind_assoc]

theorem outcome_stepBlock (limits : Limits) (block : Block) (cursor : Cursor) (data : Value)
    (rest : Program) (outer : List Suspended) :
    outcome limits ⟨cursor, data, block :: rest, outer⟩ =
    match (stepBlock limits block rest).run ⟨cursor, data, block :: rest, outer⟩ with
    | (.ok (), next) => next.outcome limits
    | (.error error, next) => (.error error, next.cursor) := by
  rw [outcome_cons]
  cases block with
  | primitive kind path =>
    rw [Block.readOver, bind_assoc, stepBlock]
    rcases h : kind.read.run cursor with ⟨error | value, after⟩
    · rw [Reader.run_bind_error h, take_error h]
    · rw [Reader.run_bind_ok h, take_ok h]
      rfl
  | array element inner path =>
    cases element with
    | scalar kind =>
      rw [Block.readOver, stepBlock]
      simp only [bind_assoc]
      rcases hk : (kind.check : Reader Unit).run cursor with ⟨error | _, checked⟩
      · rw [Reader.run_bind_error hk, take_error hk]
      rw [Reader.run_bind_ok hk, take_ok hk]
      rcases hc : (Reader.elementCount limits).run checked with ⟨error | count, counted⟩
      · rw [Reader.run_bind_error hc, take_error hc]
      rw [Reader.run_bind_ok hc, take_ok hc]
      rcases hi : (Reader.elements kind count).run counted with ⟨error | items, after⟩
      · rw [Reader.run_bind_error hi, take_error hi]
      rw [Reader.run_bind_ok hi, take_ok hi]
      rfl
    | object =>
      rw [Block.readOver, stepBlock, bind_assoc]
      rcases hc : (Reader.elementCount limits).run cursor with ⟨error | count, counted⟩
      · rw [Reader.run_bind_error hc, take_error hc]
      rw [Reader.run_bind_ok hc, take_ok hc, get_bind]
      by_cases hd : limits.depth < outer.length + 1
      · simp only [hd, if_true]
        rfl
      · simp only [hd, if_false, bind_assoc, pure_bind]
        have hresume := outcome_resume limits counted ⟨path, inner, count, [], data, rest⟩ outer
        rw [complete, bind_assoc] at hresume
        exact hresume.symm
  | discriminator kind options field path =>
    rw [Block.readOver, bind_assoc, stepBlock]
    rcases h : kind.read.run cursor with ⟨error | tag, after⟩
    · rw [Reader.run_bind_error h, take_error h]
    · rw [Reader.run_bind_ok h, take_ok h, Block.readOptionOver_eq_body]
      split
      · rw [← outcome_append]
        rfl
      · rw [← outcome_append]
        rfl

/-- A step does not change how the run ends. When it fails, the run ends there. -/
theorem outcome_step (limits : Limits) (reading : Reading) : reading.outcome limits =
    match reading.step limits with
    | (.ok (), next) => next.outcome limits
    | (.error error, next) => (.error error, next.cursor) := by
  obtain ⟨cursor, data, work, outer⟩ := reading
  cases work with
  | nil =>
    cases outer with
    | nil => rfl
    | cons array outer =>
      rw [step]
      simp only
      rw [outcome_resume, outcome, Block.readAllOver, pure_bind, finish_cons]
  | cons block rest => exact outcome_stepBlock limits block cursor data rest outer

theorem outcome_reaches (h : Reaches (step limits) first last) :
    first.outcome limits = last.outcome limits :=
  h.eq fun before after hstep => by rw [outcome_step limits before, hstep]

theorem outcome_runsInto (h : RunsInto (step limits) reading error last) :
    reading.outcome limits = (.error error, last.cursor) := by
  obtain ⟨before, hb, hstep⟩ := h
  rw [outcome_reaches hb, outcome_step, hstep]

-- ---------------------------------------------------------------------------
-- Every run ends
-- ---------------------------------------------------------------------------

/-- Every run comes to its end, or to a step that fails. -/
def Settles (limits : Limits) (reading : Reading) : Prop :=
  (∃ cursor data, Reaches (step limits) reading ⟨cursor, data, [], []⟩) ∨
    ∃ error last, RunsInto (step limits) reading error last

/-- Whatever was read before, the blocks and what is around them settle. -/
def SettlesAll (limits : Limits) (work : Program) (outer : List Suspended) : Prop :=
  ∀ cursor data, Settles limits ⟨cursor, data, work, outer⟩

theorem settles_of_step {reading : Reading}
    (h : ∀ next, step limits reading = (.ok (), next) → Settles limits next) :
    Settles limits reading := by
  rcases hstep : step limits reading with ⟨error | _, next⟩
  · exact .inr ⟨error, next, reading, .refl, hstep⟩
  · have hreach : Reaches (step limits) reading next := .single hstep
    rcases h next hstep with ⟨cursor, data, hs⟩ | ⟨error, last, hs⟩
    · exact .inl ⟨cursor, data, hreach.trans hs⟩
    · exact .inr ⟨error, last, hs.head hreach⟩

theorem settlesAll_append {first : Program}
    (h : ∀ block ∈ first, ∀ rest outer, SettlesAll limits rest outer →
      SettlesAll limits (block :: rest) outer)
    (hw : SettlesAll limits rest outer) : SettlesAll limits (first ++ rest) outer := by
  induction first with
  | nil => exact hw
  | cons block first ih =>
    rw [List.forall_mem_cons] at h
    exact h.1 _ _ (ih h.2)

/-- An array of objects settles if its blocks do, by induction on the elements that are left. -/
theorem settles_resume (array : Suspended)
    (h : ∀ block ∈ array.inner, ∀ rest outer, SettlesAll limits rest outer →
      SettlesAll limits (block :: rest) outer)
    (hw : SettlesAll limits array.work outer) (cursor : Cursor) :
    Settles limits (resume cursor array outer) := by
  obtain ⟨path, inner, left, done, data, work⟩ := array
  induction left generalizing cursor done with
  | zero => exact hw _ _
  | succ left ih =>
    have hrest : SettlesAll limits [] (⟨path, inner, left, done, data, work⟩ :: outer) :=
      fun cursor element => settles_of_step fun next hstep => by
        cases hstep
        exact ih cursor (element :: done) h hw
    have hinner := settlesAll_append h hrest
    rw [List.append_nil] at hinner
    exact hinner cursor _

mutual

theorem settlesAll_block (limits : Limits) : (block : Block) → ∀ rest outer,
    SettlesAll limits rest outer → SettlesAll limits (block :: rest) outer
  | .primitive kind path, rest, outer, hw => fun cursor data => settles_of_step fun next hstep => by
    obtain ⟨after, whole, rfl⟩ := stepBlock_primitive_ok hstep
    exact hw _ _
  | .array (.scalar kind) inner path, rest, outer, hw => fun cursor data =>
    settles_of_step fun next hstep => by
      obtain ⟨after, whole, rfl⟩ := stepBlock_flat_ok hstep
      exact hw _ _
  | .array .object inner path, rest, outer, hw => fun cursor data =>
    settles_of_step fun next hstep => by
      obtain ⟨count, after, rfl⟩ := stepBlock_records_ok hstep
      exact settles_resume _ (settlesAll_inner limits inner) hw after
  | .discriminator kind options field path, rest, outer, hw => fun cursor data =>
    settles_of_step fun next hstep => by
      obtain ⟨tag, after, whole, rfl⟩ := stepBlock_discriminator_ok hstep
      exact settlesAll_append (settlesAll_options limits options tag) hw _ _

theorem settlesAll_inner (limits : Limits) : (blocks : List Block) → ∀ block ∈ blocks,
    ∀ rest outer, SettlesAll limits rest outer → SettlesAll limits (block :: rest) outer
  | [] => nofun
  | first :: rest =>
    List.forall_mem_cons.mpr ⟨settlesAll_block limits first, settlesAll_inner limits rest⟩

theorem settlesAll_options (limits : Limits) : (options : List (Tag × List Block)) → ∀ tag,
    ∀ block ∈ Block.body options tag, ∀ rest outer, SettlesAll limits rest outer →
      SettlesAll limits (block :: rest) outer
  | [], _ => nofun
  | (option, body) :: rest, tag => by
    rw [Block.body, Block.select, List.find?_cons]
    split
    · exact settlesAll_inner limits body
    · exact settlesAll_options limits rest tag

end

theorem settles (limits : Limits) (program : Program) (root : Value) (cursor : Cursor) :
    Settles limits (start program root cursor) := by
  have hempty : SettlesAll limits [] [] := fun cursor data => .inl ⟨cursor, data, .refl⟩
  have hwork := settlesAll_append (settlesAll_inner limits program) hempty
  rw [List.append_nil] at hwork
  exact hwork cursor root

theorem outcome_done (limits : Limits) (cursor : Cursor) (data : Value) :
    outcome limits ⟨cursor, data, [], []⟩ = (.ok data, cursor) := rfl

theorem outcome_start (limits : Limits) (program : Program) (root : Value) (cursor : Cursor) :
    (start program root cursor).outcome limits =
      (Block.readAllOver limits program 0 root).run cursor := by
  have hfinish : finish limits [] = pure := rfl
  rw [outcome, start, hfinish, bind_pure]
  rfl

theorem readAllOver_ok_iff :
    (Block.readAllOver limits program 0 root).run cursor = (.ok data, last) ↔
      Reaches (step limits) (start program root cursor) ⟨last, data, [], []⟩ := by
  rw [← outcome_start]
  constructor
  · intro h
    rcases settles limits program root cursor with ⟨after, whole, hs⟩ | ⟨error, after, hs⟩
    · rw [outcome_reaches hs, outcome_done] at h
      cases h
      exact hs
    · rw [outcome_runsInto hs] at h
      cases h
  · intro h
    rw [outcome_reaches h, outcome_done]

theorem readAllOver_error_iff :
    (Block.readAllOver limits program 0 root).run cursor = (.error error, last) ↔
      ∃ state, RunsInto (step limits) (start program root cursor) error state ∧
        state.cursor = last := by
  rw [← outcome_start]
  constructor
  · intro h
    rcases settles limits program root cursor with ⟨after, whole, hs⟩ | ⟨failure, state, hs⟩
    · rw [outcome_reaches hs, outcome_done] at h
      cases h
    · rw [outcome_runsInto hs] at h
      cases h
      exact ⟨state, hs, rfl⟩
  · rintro ⟨state, hs, rfl⟩
    exact outcome_runsInto hs

end Reading

end Positional
