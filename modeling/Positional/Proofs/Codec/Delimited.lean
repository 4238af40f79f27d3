import Positional.Codec
import Positional.Proofs.Program.Composed
import Positional.Proofs.Wire.Returns

/-!
# Decoding ends where its bytes end

The bytes that a successful run takes decide its outcome: what follows them has no influence, and no
part of them is enough. A run that fails for another reason than running out of bytes fails so
whatever follows. One induction over the steps of reading shows it, for every program.
-/

namespace Positional

namespace Error

/-- Whether more bytes could have made a difference. -/
def isEof : Error → Bool
  | unexpectedEof .. => true
  | _ => false

end Error

namespace Reader

/-- The run fails for lack of bytes. -/
def RunsOut (reader : Reader α) (cursor : Cursor) : Prop :=
  ∃ error last, reader.run cursor = (.error error, last) ∧ error.isEof = true

/-- From an offset the reader takes the bytes, no more and no less: whatever follows them, it yields
the value and stops right behind them, and it runs out on every shorter part. -/
structure Takes (reader : Reader α) (pos : Nat) (taken : Bytes) (value : α) : Prop where
  whole : ∀ more, reader.run ⟨pos, taken ++ more⟩ = (.ok value, ⟨pos + taken.length, more⟩)
  short : ∀ front, front <+: taken → front ≠ taken → RunsOut reader ⟨pos, front⟩

/-- What a run does is settled by the bytes up to where it stops. -/
structure Delimited (reader : Reader α) : Prop where
  ok : ∀ {pos bytes value last}, reader.run ⟨pos, bytes⟩ = (.ok value, last) →
    ∃ taken, bytes = taken ++ last.rest ∧ Takes reader pos taken value
  error : ∀ {pos bytes error last}, reader.run ⟨pos, bytes⟩ = (.error error, last) →
    error.isEof = false →
    ∀ more, reader.run ⟨pos, bytes ++ more⟩ = (.error error, ⟨last.pos, last.rest ++ more⟩)

-- ---------------------------------------------------------------------------
-- The steps
-- ---------------------------------------------------------------------------

theorem Takes.nil {reader : Reader α}
    (h : ∀ more, reader.run ⟨pos, more⟩ = (.ok value, ⟨pos, more⟩)) :
    Takes reader pos [] value :=
  ⟨h, fun _ hfront hne => absurd (List.prefix_nil.mp hfront) hne⟩

theorem delimited_pure (a : α) : Delimited (pure a : Reader α) where
  ok h := by
    obtain ⟨rfl, rfl⟩ := pure_ok.mp h
    exact ⟨[], rfl, .nil fun _ => rfl⟩
  error h := by cases h

theorem delimited_throw (error : Error) : Delimited (throw error : Reader α) where
  ok h := absurd h throw_ok
  error h _ more := by
    cases h
    rfl

theorem delimited_position : Delimited position where
  ok h := by
    cases h
    exact ⟨[], rfl, .nil fun _ => rfl⟩
  error h := by cases h

theorem runsOut_exact (h : rest.length < count) : RunsOut (exact count) ⟨pos, rest⟩ :=
  ⟨_, _, run_exact_short h, rfl⟩

theorem delimited_exact (count : Nat) : Delimited (exact count) where
  ok {pos bytes value last} h := by
    obtain ⟨hcount, rfl, rfl⟩ := exact_ok.mp h
    have htaken : (bytes.take count).length = count := List.length_take_of_le hcount
    refine ⟨bytes.take count, (List.take_append_drop ..).symm, fun more => ?_,
      fun front hfront hne => runsOut_exact ?_⟩
    · rw [htaken, exact_ok]
      exact ⟨by rw [List.length_append, htaken]; exact Nat.le_add_right ..,
        (List.take_left' htaken).symm, by rw [List.drop_left' htaken]⟩
    · exact Nat.lt_of_le_of_ne (htaken ▸ hfront.length_le) fun heq =>
        hne (hfront.eq_of_length (heq.trans htaken.symm))
  error {pos bytes error last} h heof := by
    by_cases hcount : count ≤ bytes.length
    · rw [exact_ok.mpr ⟨hcount, rfl, rfl⟩] at h
      cases h
    · rw [run_exact_short (Nat.lt_of_not_le hcount)] at h
      cases h
      cases heof

theorem delimited_byte : Delimited byte where
  ok {pos bytes value last} h := by
    obtain ⟨rfl, hpos⟩ := byte_ok.mp h
    refine ⟨[value], rfl, fun more => byte_ok.mpr ⟨rfl, rfl⟩, fun front hfront hne => ?_⟩
    -- the only shorter part of one byte is none
    obtain rfl : front = [] := (List.prefix_cons_iff.mp hfront).resolve_right
      fun ⟨_, hcons, htail⟩ => hne (by rw [hcons, List.prefix_nil.mp htail])
    exact ⟨_, _, rfl, rfl⟩
  error {pos bytes error last} h heof := by
    cases bytes with
    | nil =>
      cases h
      cases heof
    | cons => cases h

-- ---------------------------------------------------------------------------
-- Sequences
-- ---------------------------------------------------------------------------

theorem RunsOut.bind {reader : Reader α} (h : RunsOut reader cursor) (next : α → Reader β) :
    RunsOut (reader >>= next) cursor :=
  have ⟨error, last, hrun, heof⟩ := h
  ⟨error, last, run_bind_error hrun, heof⟩

theorem RunsOut.of_next {reader : Reader α} {next : α → Reader β}
    (hrun : reader.run cursor = (.ok value, after)) (h : RunsOut (next value) after) :
    RunsOut (reader >>= next) cursor := by
  obtain ⟨error, last, hnext, heof⟩ := h
  exact ⟨error, last, (run_bind_ok hrun).trans hnext, heof⟩

theorem Takes.bind {reader : Reader α} {next : α → Reader β} (h : Takes reader pos first value)
    (hn : Takes (next value) (pos + first.length) second result) :
    Takes (reader >>= next) pos (first ++ second) result where
  whole more := by
    rw [List.append_assoc, run_bind_ok (h.whole _), hn.whole, List.length_append, Nat.add_assoc]
  short front hfront hne := by
    by_cases hbeyond : first <+: front
    · obtain ⟨part, rfl⟩ := hbeyond
      have hpart := (List.prefix_append_right_inj first).mp hfront
      exact .of_next (h.whole part) (hn.short part hpart fun heq => hne (by rw [heq]))
    · have hwithin := (List.prefix_or_prefix_of_prefix hfront (List.prefix_append ..)).resolve_right
        hbeyond
      exact (h.short front hwithin fun heq => hbeyond (heq ▸ List.prefix_rfl)).bind next

theorem Delimited.bind {reader : Reader α} {next : α → Reader β} (h : Delimited reader)
    (hn : ∀ a, Delimited (next a)) : Delimited (reader >>= next) where
  ok {pos bytes result last} hrun := by
    obtain ⟨value, ⟨mid, rest⟩, hfirst, hsecond⟩ := bind_ok.mp hrun
    obtain ⟨first, rfl, htakes⟩ := h.ok hfirst
    cases (htakes.whole rest).symm.trans hfirst
    obtain ⟨second, rfl, htakes'⟩ := (hn value).ok hsecond
    exact ⟨first ++ second, (List.append_assoc ..).symm, htakes.bind htakes'⟩
  error {pos bytes error last} hrun heof more := by
    rcases hfirst : reader.run ⟨pos, bytes⟩ with ⟨stopped | value, ⟨mid, rest⟩⟩
    · rw [run_bind_error hfirst] at hrun
      cases hrun
      exact run_bind_error (h.error hfirst heof more)
    · rw [run_bind_ok hfirst] at hrun
      obtain ⟨first, rfl, htakes⟩ := h.ok hfirst
      cases (htakes.whole rest).symm.trans hfirst
      rw [List.append_assoc, run_bind_ok (htakes.whole _)]
      exact (hn value).error hrun heof more

theorem Composed.delimited {α : Type} {reader : Reader α} (h : Composed reader) :
    Delimited reader := by
  induction h with
  | pure a => exact delimited_pure a
  | throw error => exact delimited_throw error
  | position _ _ ih => exact delimited_position.bind ih
  | byte => exact delimited_byte
  | exact count => exact delimited_exact count
  | bind _ _ ih ihn => exact ih.bind ihn

end Reader

open Reader

namespace Program

theorem read_ok {program : Program} : (program.read options root).run cursor = (.ok y, last) ↔
    ∃ writes, (Block.readAll options.toLimits program 0).run cursor = (.ok writes, last) ∧
      (options.strict = true → last.rest = []) ∧ y = root.assignAll writes := by
  have hleft : ∀ after : Cursor, ¬ (options.strict && 0 < after.remaining) = true ↔
      (options.strict = true → after.rest = []) := by
    intro after
    rw [Bool.and_eq_true, decide_eq_true_eq, Cursor.remaining, List.length_pos_iff, not_and, Classical.not_not]
  rw [read, bind_ok]
  refine exists_congr fun writes => ⟨?_, ?_⟩
  · rintro ⟨after, hread, h⟩
    obtain ⟨_, _, hget, h⟩ := bind_ok.mp h
    obtain ⟨rfl, rfl⟩ := get_ok.mp hget
    split at h
    · exact absurd h throw_ok
    · rename_i hnone
      obtain ⟨rfl, rfl⟩ := pure_ok.mp h
      exact ⟨hread, (hleft after).mp hnone, rfl⟩
  · rintro ⟨hread, hrest, rfl⟩
    refine ⟨last, hread, bind_ok.mpr ⟨last, last, get_ok.mpr ⟨rfl, rfl⟩, ?_⟩⟩
    rw [if_neg ((hleft last).mpr hrest)]
    rfl

/-- Only a strict run looks at what is left. -/
theorem composed_read {options : DecodeOptions} (h : options.strict = false) (program : Program)
    (root : Value) : Composed (program.read options root) := by
  have hread : program.read options root =
      (do return root.assignAll (← Block.readAll options.toLimits program 0)) := by
    rw [read, h]
    rfl
  rw [hread]
  exact (Block.composed_readAll _ _ _).map _

/-- Unless all bytes have to be used, the bytes that a run takes are the only ones that matter: any
others may follow them, each shorter part of them runs out, and a failure that is not for lack of
bytes stays the same at the same place. -/
theorem read_delimited {options : DecodeOptions} (h : options.strict = false) (program : Program)
    (root : Value) (buffer : Bytes) :
    (∀ value cursor, (program.read options root).run (Cursor.start buffer) = (.ok value, cursor) →
      cursor.pos ≤ buffer.length ∧
      (∀ more, (program.read options root).run (Cursor.start (buffer.take cursor.pos ++ more))
        = (.ok value, ⟨cursor.pos, more⟩)) ∧
      ∀ count < cursor.pos,
        RunsOut (program.read options root) (Cursor.start (buffer.take count))) ∧
    ∀ error cursor, (program.read options root).run (Cursor.start buffer) = (.error error, cursor) →
      error.isEof = false →
      ∀ more, (program.read options root).run (Cursor.start (buffer ++ more))
        = (.error error, ⟨cursor.pos, cursor.rest ++ more⟩) := by
  have hread := (composed_read h program root).delimited
  refine ⟨fun value cursor hrun => ?_, fun error cursor hrun => hread.error hrun⟩
  obtain ⟨taken, rfl, htakes⟩ := hread.ok hrun
  have hpos : cursor.pos = taken.length := by
    have heq := (htakes.whole cursor.rest).symm.trans hrun
    simpa using congrArg (·.2.pos) heq.symm
  have htaken : (taken ++ cursor.rest).take cursor.pos = taken := List.take_left' hpos.symm
  refine ⟨?_, fun more => ?_, fun count hcount => ?_⟩
  · rw [hpos, List.length_append]
    exact Nat.le_add_right ..
  · have hwhole := htakes.whole more
    rw [Nat.zero_add] at hwhole
    rw [htaken, hpos]
    exact hwhole
  · have hpart : (taken ++ cursor.rest).take count = taken.take count :=
      List.take_append_of_le_length (by omega)
    rw [hpart]
    refine htakes.short _ (List.take_prefix ..) fun heq => ?_
    have hlength := congrArg List.length heq
    rw [List.length_take] at hlength
    omega

theorem read_delimited_text :
    (Program.read [.primitive .string ["s"]] {} (.object [])).run (Cursor.start [1, 97, 5, 6, 7])
      = (.ok (.object [("s", .text "a")]), ⟨2, [5, 6, 7]⟩) ∧
    RunsOut (Program.read [.primitive .string ["s"]] {} (.object [])) (Cursor.start [1]) ∧
    (Program.read [.primitive .string ["s"]] {} (.object [])).run (Cursor.start [1, 255, 8])
      = (.error (.invalidUtf8 1), ⟨2, [8]⟩) := by
  have hlax : ({} : DecodeOptions).strict = false := rfl
  have hok := (read_delimited hlax [.primitive .string ["s"]] (.object [])
    [1, 97, 9]).1 (.object [("s", .text "a")]) ⟨2, [9]⟩ rfl
  have herror := (read_delimited hlax [.primitive .string ["s"]] (.object [])
    [1, 255]).2 (.invalidUtf8 1) ⟨2, []⟩ rfl rfl
  exact ⟨hok.2.1 [5, 6, 7], hok.2.2 1 (by decide), herror [8]⟩

end Program

end Positional
