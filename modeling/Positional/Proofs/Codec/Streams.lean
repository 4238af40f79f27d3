import Mathlib.Algebra.GroupWithZero.Nat
import Positional.Proofs.Codec.Canonical

/-!
# Documents in a row

Documents written one after the other, each by a program of its own, stand behind one another in the
buffer: writing only appends. Read in the same order they come back, each as it would come back alone,
for a reader neither looks beyond its own bytes nor cares at which offset they begin.
-/

namespace Positional

namespace Reader

/-- What a run takes gives the same value at every offset, whatever follows. -/
theorem Composed.returns {α : Type} {reader : Reader α} {value : α} (h : Composed reader)
    (hrun : reader.run ⟨pos, bytes⟩ = (.ok value, last)) :
    ∃ taken, bytes = taken ++ last.rest ∧ Returns True reader taken value := by
  induction h generalizing pos bytes last with
  | pure a =>
    obtain ⟨rfl, rfl⟩ := pure_ok.mp hrun
    exact ⟨[], rfl, .pure a⟩
  | throw => exact absurd hrun throw_ok
  | position _ hsame ih =>
    rw [run_bind_ok (run_position _)] at hrun
    obtain ⟨taken, rfl, _⟩ := ih pos hrun
    refine ⟨taken, rfl, .position fun start => ?_⟩
    obtain ⟨other, heq, hreturns⟩ := ih start (hsame pos start _ _ _ hrun)
    rwa [List.append_cancel_right heq]
  | byte =>
    obtain ⟨rfl, -⟩ := byte_ok.mp hrun
    exact ⟨[value], rfl, fun _ _ => .inl (byte_ok.mpr ⟨rfl, rfl⟩)⟩
  | exact count =>
    obtain ⟨hcount, rfl, rfl⟩ := exact_ok.mp hrun
    refine ⟨bytes.take count, (List.take_append_drop ..).symm, ?_⟩
    have hreturns := returns_exact (bytes.take count)
    rwa [List.length_take_of_le hcount] at hreturns
  | bind _ _ ih ihn =>
    obtain ⟨a, ⟨mid, rest⟩, hfirst, hsecond⟩ := bind_ok.mp hrun
    obtain ⟨first, rfl, hreturns⟩ := ih hfirst
    obtain ⟨second, rfl, hreturns'⟩ := ihn a hsecond
    exact ⟨first ++ second, (List.append_assoc ..).symm, (hreturns.bind hreturns').mono fun _ => ⟨trivial, trivial⟩⟩

end Reader

/-- One run for each item, one after the other on one state: what comes of each run, and the state
that it leaves to the next. A run that fails does not keep the next one from its turn. -/
def inTurn (run : ι → ExceptT Error (StateM σ) α) : List ι → σ → List (Except Error α × σ)
  | [], _ => []
  | item :: rest, state =>
    let done := (run item).run state
    done :: inTurn run rest done.2

/-- One document in a row: the program that writes and reads it, the options under which it is read
and the root that it is read over. -/
structure Step where
  program : Program
  data : Value
  options : DecodeOptions
  root : Value

namespace Step

def write (step : Step) : Writer Unit :=
  step.program.write step.data

/-- Reads the document where others may follow. -/
def read (step : Step) : Reader Value :=
  step.program.read { step.options with strict := false } step.root

/-- What comes of writing steps in turn behind a buffer: a step that succeeds appends its encoding, one
that fails appends what it wrote until then, and the next step writes behind that. -/
inductive Appends : Bytes → List Step → List (Except Error Unit × Bytes) → Prop
  | nil : Appends buffer [] []
  | ok (h : step.program.encode step.data = .ok bytes) (hr : Appends (buffer ++ bytes) steps outcomes) :
      Appends buffer (step :: steps) ((.ok (), buffer ++ bytes) :: outcomes)
  | error (h : step.program.encode step.data = .error error)
      (hr : Appends (buffer ++ bytes) steps outcomes) :
      Appends buffer (step :: steps) ((.error error, buffer ++ bytes) :: outcomes)

theorem run_write (step : Step) (buffer : Bytes) : step.write.run buffer =
    ((step.program.encode step.data).map fun _ => (),
      buffer ++ (Block.emitAll step.program step.data).bytes) :=
  step.program.run_write step.data buffer

theorem run_write_ok {step : Step} (h : step.program.encode step.data = .ok bytes) (buffer : Bytes) :
    step.write.run buffer = (.ok (), buffer ++ bytes) := by
  rw [run_write, h, Program.encode_ok.mp h]
  rfl

theorem appends_inTurn (steps : List Step) (buffer : Bytes) :
    Appends buffer steps (inTurn write steps buffer) := by
  induction steps generalizing buffer with
  | nil => exact .nil
  | cons step steps ih =>
    rw [inTurn]
    cases hencode : step.program.encode step.data with
    | ok bytes =>
      rw [run_write_ok hencode]
      exact .ok hencode (ih _)
    | error error =>
      rw [run_write, hencode]
      exact .error hencode (ih _)

end Step

/-- A step with the bytes that it writes and the value that it reads. -/
structure Part where
  step : Step
  bytes : Bytes
  value : Value

namespace Part

/-- By itself the step writes the bytes, and reading them over its root gives the value and uses them
up. -/
structure Alone (part : Part) : Prop where
  encode : part.step.program.encode part.step.data = .ok part.bytes
  decode : ∃ last, (part.step.program.read part.step.options part.step.root).run
    (Cursor.start part.bytes) = (.ok part.value, last) ∧ last.remaining = 0

theorem Alone.run_read {part : Part} (h : Alone part) (pos : Nat) (more : Bytes) :
    part.step.read.run ⟨pos, part.bytes ++ more⟩ = (.ok part.value, ⟨pos + part.bytes.length, more⟩) := by
  obtain ⟨last, hread, hnone⟩ := h.decode
  obtain ⟨writes, hall, -, hvalue⟩ := Program.read_ok.mp hread
  obtain ⟨taken, hbytes, hreturns⟩ := (Block.composed_readAll ..).returns hall
  rw [List.eq_nil_of_length_eq_zero hnone, List.append_nil] at hbytes
  rcases hreturns pos more with hrun | ⟨hno, -⟩
  · rw [← hbytes] at hrun
    exact Program.read_ok.mpr ⟨writes, hrun, fun hs => absurd hs Bool.false_ne_true, hvalue⟩
  · exact absurd trivial hno

variable {parts : List Part} {part : Part} (h : ∀ part ∈ parts, part.Alone)
include h

theorem inTurn_write {i : Nat} (buffer : Bytes) (hi : parts[i]? = some part) :
    (inTurn (·.step.write) parts buffer)[i]?
      = some (.ok (), buffer ++ (parts.take (i + 1)).flatMap (·.bytes)) := by
  induction parts generalizing buffer i with
  | nil => cases hi
  | cons first rest ih =>
    obtain ⟨hfirst, hrest⟩ := List.forall_mem_cons.mp h
    rw [inTurn, Step.run_write_ok hfirst.encode, List.take_succ_cons, List.flatMap_cons,
      ← List.append_assoc]
    cases i with
    | zero =>
      rw [List.take_zero, List.flatMap_nil, List.append_nil]
      rfl
    | succ i => exact ih hrest _ hi

theorem inTurn_read {i : Nat} (pos : Nat) (hi : parts[i]? = some part) :
    (inTurn (·.step.read) parts (Cursor.mk pos (parts.flatMap (·.bytes))))[i]?
      = some (.ok part.value, ⟨pos + ((parts.take (i + 1)).map (·.bytes.length)).sum,
          (parts.drop (i + 1)).flatMap (·.bytes)⟩) := by
  induction parts generalizing pos i with
  | nil => cases hi
  | cons first rest ih =>
    obtain ⟨hfirst, hrest⟩ := List.forall_mem_cons.mp h
    rw [inTurn, List.flatMap_cons, hfirst.run_read, List.take_succ_cons, List.map_cons,
      List.sum_cons, ← Nat.add_assoc, List.drop_succ_cons]
    cases i with
    | zero =>
      cases hi
      rfl
    | succ i => exact ih hrest _ hi

end Part

/-- Whatever the steps, each that succeeds appends what it writes alone, and one that fails only
appends. If all succeed, and each would be read back alone from all of its bytes, then reading them in
turn from what they wrote gives the same values; each ends where the lengths so far add up to, before
the bytes of the others, so behind the last nothing is left. -/
theorem inTurn_compose :
    (∀ (steps : List Step) (buffer : Bytes),
      Step.Appends buffer steps (inTurn Step.write steps buffer)) ∧
    ∀ parts : List Part, (∀ part ∈ parts, part.Alone) → ∀ (i : Nat) (part : Part),
      parts[i]? = some part →
      (inTurn (·.step.write) parts [])[i]?
        = some (.ok (), (parts.take (i + 1)).flatMap (·.bytes)) ∧
      (inTurn (·.step.read) parts (Cursor.start (parts.flatMap (·.bytes))))[i]?
        = some (.ok part.value, ⟨((parts.take (i + 1)).map (·.bytes.length)).sum,
            (parts.drop (i + 1)).flatMap (·.bytes)⟩) := by
  refine ⟨Step.appends_inTurn, fun parts h i part hi => ⟨Part.inTurn_write h [] hi, ?_⟩⟩
  have hread := Part.inTurn_read h 0 hi
  rwa [Nat.zero_add] at hread

/-- A text and an array of two records without bytes, read over different roots. -/
theorem inTurn_compose_two :
    let first : Part := ⟨⟨[.primitive .string ["s"]], .object [("s", .text "a")], .exact, .object []⟩,
      [1, 97], .object [("s", .text "a")]⟩
    let second : Part := ⟨⟨[.array .object [.primitive .null ["n"]] ["l"]],
      .object [("l", .array [.null, .null])], {}, .object [("k", .bool true)]⟩,
      [2], .object [("k", .bool true), ("l", .array [.object [("n", .null)], .object [("n", .null)]])]⟩
    (∀ part ∈ [first, second], part.Alone) ∧
      (inTurn (·.step.write) [first, second] [])[1]? = some (.ok (), [1, 97, 2]) ∧
      (inTurn (·.step.read) [first, second] (Cursor.start [1, 97, 2]))[1]?
        = some (.ok second.value, ⟨3, []⟩) := by
  intro first second
  have htext : (Program.read [.primitive .string ["s"]] .exact (.object [])).run
      (Cursor.start [1, 97]) = (.ok (.object [("s", .text "a")]), ⟨2, []⟩) := rfl
  have halone : ∀ part ∈ [first, second], part.Alone := by
    refine List.forall_mem_cons.mpr ⟨⟨Program.encode_ok.mpr ?_, _, htext, rfl⟩,
      List.forall_mem_singleton.mpr ⟨Program.encode_ok.mpr ?_, _, rfl, rfl⟩⟩
    all_goals decide +kernel
  obtain ⟨hwrite, hread⟩ := inTurn_compose.2 [first, second] halone 1 second rfl
  exact ⟨halone, hwrite, hread⟩

end Positional
