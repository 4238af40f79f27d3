import Positional.Proofs.Codec.Streams
import Positional.Proofs.Wire.Window

/-!
# No step leaves the buffer

Every read of a cursor, every run of a program and any of them in turn, whatever the bytes and
whatever failed before, can be done by offsets into the buffer without a fault (`Access`), with the
same outcome at the same place. Where a failed read leaves the cursor is told for each read.
-/

namespace Positional

namespace Access

def elementCount (limits : Limits) : Access Nat := do
  let count := (← varint).toNat
  if limits.arrayElements < count then throw (.arrayTooLarge count limits.arrayElements)
  else return count

end Access

def Kind.access : Kind → Access Value
  | string => return .text (← Access.text)
  | float => return .float (← Access.double)
  | int => return .int (← Access.svarint)
  | uint => return .uint (← Access.varint)
  | boolean => return .bool (← Access.boolean)
  | date => return .date (← Access.fixed64)
  | buffer => return .bytes (← Access.lengthPrefixed)
  | null => return .null
  | unknown name => throw (.unknownKind name)

def Access.elements (kind : Kind) (count : Nat) : Access (List Value) :=
  match kind with
  | .boolean => return (← packedFlags count).map Value.bool
  | kind => times count kind.access

mutual

/-- What a block assigns from the bytes, by offsets. -/
def Block.access (limits : Limits) : Block → (depth : Nat) → Access Writes
  | .primitive kind path, _ => return [(path, ← kind.access)]
  | .array .object inner path, depth => do
    let count ← Access.elementCount limits
    if limits.depth < depth + 1 then throw (.depthExceeded limits.depth)
    else
      let items ← Access.times count
        (do return Value.ofWrites (← Block.accessAll limits inner (depth + 1)))
      return [(path, .array items)]
  | .array (.scalar kind) _ path, _ => do
    kind.check
    let count ← Access.elementCount limits
    return [(path, .array (← Access.elements kind count))]
  | .discriminator kind options field path, depth => do
    let tag ← kind.access
    let body ← Block.accessOption limits options tag depth
    return tagWrites path field tag ++ body

def Block.accessAll (limits : Limits) : List Block → (depth : Nat) → Access Writes
  | [], _ => return []
  | block :: rest, depth => do
    let first ← block.access limits depth
    let others ← Block.accessAll limits rest depth
    return first ++ others

def Block.accessOption (limits : Limits) :
    List (Tag × List Block) → (tag : Value) → (depth : Nat) → Access Writes
  | [], _, _ => return []
  | (option, body) :: rest, tag, depth =>
    if option.matchesValue tag then Block.accessAll limits body depth
    else Block.accessOption limits rest tag depth

end

def Program.access (program : Program) (options : DecodeOptions) (root : Value) : Access Value := do
  let writes ← Block.accessAll options.toLimits program 0
  let left ← Access.remaining
  if options.strict && 0 < left then throw (.trailingBytes left)
  else return root.assignAll writes

open Access

variable {buffer : Bytes} {offset : Nat}

-- ---------------------------------------------------------------------------
-- Programs
-- ---------------------------------------------------------------------------

theorem Access.safe_elementCount (limits : Limits) (h : offset ≤ buffer.length) :
    SafeAt (elementCount limits) (Reader.elementCount limits) buffer offset :=
  (safe_varint h).bind fun _ _ _ hwithin _ =>
    .ite (fun _ => .throw hwithin (fun _ hplace => nomatch hplace)) fun _ => .pure _ hwithin

theorem Kind.safe_check (kind : Kind) (h : offset ≤ buffer.length) :
    SafeAt (liftM kind.check) (liftM kind.check) buffer offset := by
  cases kind with
  | unknown name => exact .throw h fun _ hplace => nomatch hplace
  | _ => exact .pure () h

theorem Kind.safe_access (kind : Kind) (h : offset ≤ buffer.length) :
    SafeAt kind.access kind.read buffer offset := by
  cases kind with
  | string => exact (safe_text h).map _
  | float => exact (safe_double h).map _
  | int => exact (safe_svarint h).map _
  | uint => exact (safe_varint h).map _
  | boolean => exact (safe_boolean h).map _
  | date => exact (safe_fixed64 h).map _
  | buffer => exact (safe_lengthPrefixed h).map _
  | null => exact .pure _ h
  | unknown name => exact .throw h fun _ hplace => nomatch hplace

theorem Access.safe_elements (kind : Kind) (count : Nat) (h : offset ≤ buffer.length) :
    SafeAt (elements kind count) (Reader.elements kind count) buffer offset := by
  cases kind with
  | boolean => exact (safe_packedFlags count h).map _
  | _ => exact safe_timesAfter (fun _ => Kind.safe_access _) [] count h

namespace Block

mutual

theorem safe_access (limits : Limits) : (block : Block) → (depth : Nat) → {offset : Nat} →
    offset ≤ buffer.length → SafeAt (block.access limits depth) (block.read limits depth) buffer offset
  | .primitive kind path, _, _, h => (kind.safe_access h).map _
  | .array .object inner path, depth, _, h => by
    rw [access, read]
    refine (safe_elementCount limits h).bind fun count stop _ hwithin _ => ?_
    refine .ite (fun _ => .throw hwithin fun _ hplace => nomatch hplace) fun _ => ?_
    exact (safe_timesAfter (fun _ hoffset => (safe_accessAll limits inner (depth + 1) hoffset).map
      Value.ofWrites) [] count hwithin).map _
  | .array (.scalar kind) _ path, _, _, h => by
    rw [access, read]
    exact (kind.safe_check h).bind fun _ _ _ hwithin _ =>
      (safe_elementCount limits hwithin).bind fun count _ _ hwithin _ =>
        (safe_elements kind count hwithin).map _
  | .discriminator kind options field path, depth, _, h => by
    rw [access, read]
    exact (kind.safe_access h).bind fun tag _ _ hwithin _ =>
      (safe_accessOption limits options tag depth hwithin).map _

theorem safe_accessAll (limits : Limits) : (blocks : List Block) → (depth : Nat) → {offset : Nat} →
    offset ≤ buffer.length →
    SafeAt (accessAll limits blocks depth) (readAll limits blocks depth) buffer offset
  | [], _, _, h => .pure _ h
  | block :: rest, depth, _, h => by
    rw [accessAll, readAll]
    exact (safe_access limits block depth h).bind fun _ _ _ hwithin _ =>
      (safe_accessAll limits rest depth hwithin).map _

theorem safe_accessOption (limits : Limits) : (options : List (Tag × List Block)) → (tag : Value) →
    (depth : Nat) → {offset : Nat} → offset ≤ buffer.length →
    SafeAt (accessOption limits options tag depth) (readOption limits options tag depth) buffer offset
  | [], _, _, _, h => .pure _ h
  | (_, body) :: rest, tag, depth, _, h =>
    .ite (fun _ => safe_accessAll limits body depth h) fun _ =>
      safe_accessOption limits rest tag depth h

end

end Block

theorem Access.SafeAt.remaining {next : Nat → Access α} {next' : Cursor → Reader α}
    (hwithin : offset ≤ buffer.length) (h : SafeAt (next (buffer.drop offset).length)
      (next' ⟨offset, buffer.drop offset⟩) buffer offset) :
    SafeAt (Access.remaining >>= next) (get >>= next') buffer offset := by
  obtain ⟨outcome, stop, hle, hstop, hreader, haccess, herror⟩ := h
  have hget : (get : Reader Cursor).run ⟨offset, buffer.drop offset⟩ =
      (.ok ⟨offset, buffer.drop offset⟩, ⟨offset, buffer.drop offset⟩) :=
    Reader.get_ok.mpr ⟨rfl, rfl⟩
  have hleft : Access.remaining.run ⟨buffer, offset⟩ =
      some (.ok (buffer.drop offset).length, ⟨buffer, offset⟩) := by
    rw [run_remaining hwithin, List.length_drop]
  exact ⟨outcome, stop, hle, hstop, Reader.run_bind_ok hget ▸ hreader,
    run_bind_ok hleft ▸ haccess, herror⟩

theorem Program.safe_access (program : Program) (options : DecodeOptions) (root : Value)
    (h : offset ≤ buffer.length) :
    SafeAt (program.access options root) (program.read options root) buffer offset := by
  refine (Block.safe_accessAll _ _ _ h).bind fun writes stop _ hwithin _ => .remaining hwithin ?_
  exact .ite (fun _ => .throw hwithin fun _ hplace => nomatch hplace) fun _ => .pure _ hwithin

-- ---------------------------------------------------------------------------
-- In turn
-- ---------------------------------------------------------------------------

namespace Access

/-- One access for each item, in turn on one window. A failure does not keep the next one from its
turn, a fault ends them all. -/
def inTurn? (run : ι → Access α) : List ι → Window → Option (List (Except Error α × Window))
  | [], _ => some []
  | item :: rest, window => do
    let done ← (run item).run window
    return done :: (← inTurn? run rest done.2)

/-- Where a run leaves a cursor that was at an offset of the buffer: not before, still with all the
bytes that it has not passed, and at or behind every place that a failure reports. -/
structure Within (buffer : Bytes) (offset : Nat) (done : Except Error α × Cursor) : Prop where
  forward : offset ≤ done.2.pos
  rest : done.2.rest = buffer.drop done.2.pos
  pos_add_remaining : done.2.pos + done.2.remaining = buffer.length
  reported : ∀ error, done.1 = .error error → ∀ place ∈ error.offset?, place ≤ done.2.pos

theorem SafeAt.within {access : Access α} {reader : Reader α}
    (h : SafeAt access reader buffer offset) :
    Within buffer offset (reader.run ⟨offset, buffer.drop offset⟩) ∧
      access.run ⟨buffer, offset⟩ = some ((reader.run ⟨offset, buffer.drop offset⟩).1,
        ⟨buffer, (reader.run ⟨offset, buffer.drop offset⟩).2.pos⟩) := by
  obtain ⟨outcome, stop, hle, hwithin, hreader, haccess, herror⟩ := h
  rw [hreader]
  refine ⟨⟨hle, rfl, ?_, herror⟩, haccess⟩
  rw [Cursor.remaining, List.length_drop]
  exact Nat.add_sub_cancel' hwithin

theorem Within.pos_le {done : Except Error α × Cursor} (h : Within buffer offset done) :
    done.2.pos ≤ buffer.length :=
  h.pos_add_remaining ▸ Nat.le_add_right ..

theorem Within.mono {done : Except Error α × Cursor} (h : Within buffer stop done)
    (hle : offset ≤ stop) : Within buffer offset done :=
  { h with forward := Nat.le_trans hle h.forward }

theorem inTurn_within {run : ι → Access α} {read : ι → Reader α}
    (h : ∀ item offset, offset ≤ buffer.length → SafeAt (run item) (read item) buffer offset)
    (items : List ι) (hoffset : offset ≤ buffer.length) :
    inTurn? run items ⟨buffer, offset⟩ = some ((inTurn read items ⟨offset, buffer.drop offset⟩).map
        fun done => (done.1, ⟨buffer, done.2.pos⟩)) ∧
      (∀ done ∈ inTurn read items ⟨offset, buffer.drop offset⟩, Within buffer offset done) ∧
      ((inTurn read items ⟨offset, buffer.drop offset⟩).map (·.2.pos)).Pairwise (· ≤ ·) := by
  induction items generalizing offset with
  | nil => exact ⟨rfl, List.forall_mem_nil _, List.Pairwise.nil⟩
  | cons item items ih =>
    obtain ⟨hdone, hrun⟩ := (h item offset hoffset).within
    rw [inTurn?, hrun, inTurn]
    -- the next item begins at the cursor that this run leaves
    generalize (read item).run ⟨offset, buffer.drop offset⟩ = done at hdone
    obtain ⟨outcome, ⟨pos, rest⟩⟩ := done
    obtain rfl : rest = buffer.drop pos := hdone.rest
    obtain ⟨hruns, hall, hsorted⟩ := ih hdone.pos_le
    refine ⟨?_, List.forall_mem_cons.mpr ⟨hdone, fun done hmem => (hall done hmem).mono hdone.forward⟩,
      List.pairwise_cons.mpr ⟨?_, hsorted⟩⟩
    · simp only [Option.bind_eq_bind, Option.bind_some, hruns]
      rfl
    · intro place hplace
      obtain ⟨done, hmem, rfl⟩ := List.mem_map.mp hplace
      exact (hall done hmem).forward

end Access

-- ---------------------------------------------------------------------------
-- Where a failed read stops
-- ---------------------------------------------------------------------------

namespace Reader

theorem map_error {reader : Reader α} {f : α → β}
    (h : (do return f (← reader)).run cursor = (.error error, last)) :
    reader.run cursor = (.error error, last) := by
  rcases bind_error.mp h with hreader | ⟨a, after, -, hpure⟩
  · exact hreader
  · cases hpure

theorem lengthPrefixed_error {length : UInt64} (hlength : varint.run cursor = (.ok length, after))
    (h : lengthPrefixed.run cursor = (.error error, last)) :
    last = after ∧ error = .unexpectedEof after.pos length.toNat after.remaining := by
  rw [lengthPrefixed, run_bind_ok hlength] at h
  obtain ⟨-, herror, hlast⟩ := exact_error.mp h
  exact ⟨hlast, herror⟩

theorem text_error {length : UInt64} (hlength : varint.run cursor = (.ok length, after))
    (h : text.run cursor = (.error error, last)) :
    (last = after ∧ error = .unexpectedEof after.pos length.toNat after.remaining) ∨
      (last = ⟨after.pos + length.toNat, after.rest.drop length.toNat⟩ ∧
        error = .invalidUtf8 after.pos) := by
  rcases bind_error.mp h with hprefixed | ⟨content, behind, hprefixed, h⟩
  · exact .inl (lengthPrefixed_error hlength hprefixed)
  · rw [lengthPrefixed, run_bind_ok hlength] at hprefixed
    obtain ⟨hle, rfl, rfl⟩ := exact_ok.mp hprefixed
    rw [run_bind_ok (run_position _), List.length_take_of_le hle, Nat.add_sub_cancel] at h
    split at h
    · cases h
    · cases h
      exact .inr ⟨rfl, rfl⟩

end Reader

/-- Whatever is asked of a cursor in turn, and whichever program is run from whichever place, no step
by offsets is at fault: none goes back or beyond the buffer, slices or indexes out of range, or
subtracts below zero. All bytes that were not passed are still left, and no failure reports a place
that was not reached. A read of a fixed number of bytes that fails moves nothing; one behind a length
that was read stops right behind the length, or behind the payload that is no text. -/
theorem reads_stay_within :
    (∀ (buffer : Bytes) (requests : List Request),
      Access.inTurn? Request.access requests ⟨buffer, 0⟩ =
        some ((inTurn Request.read requests (Cursor.start buffer)).map
          fun done => (done.1, ⟨buffer, done.2.pos⟩)) ∧
      (∀ done ∈ inTurn Request.read requests (Cursor.start buffer), Access.Within buffer 0 done) ∧
      ((inTurn Request.read requests (Cursor.start buffer)).map (·.2.pos)).Pairwise (· ≤ ·)) ∧
    (∀ (program : Program) (options : DecodeOptions) (root : Value) (buffer : Bytes) (pos : Nat),
      pos ≤ buffer.length →
      Access.Within buffer pos ((program.read options root).run ⟨pos, buffer.drop pos⟩) ∧
      (program.access options root).run ⟨buffer, pos⟩ =
        some (((program.read options root).run ⟨pos, buffer.drop pos⟩).1,
          ⟨buffer, ((program.read options root).run ⟨pos, buffer.drop pos⟩).2.pos⟩)) ∧
    (∀ count, ∀ request ∈ [Request.exact count, .double, .fixed64], ∀ cursor error last,
      request.read.run cursor = (.error error, last) → last = cursor) ∧
    ∀ cursor length after, Reader.varint.run cursor = (.ok length, after) →
      ∀ request ∈ [Request.bytes, .text], ∀ error last,
        request.read.run cursor = (.error error, last) →
        (last = after ∧ error = .unexpectedEof after.pos length.toNat after.remaining) ∨
        (request = .text ∧ error = .invalidUtf8 after.pos ∧
          last = ⟨after.pos + length.toNat, after.rest.drop length.toNat⟩) := by
  refine ⟨fun buffer requests => ?_, fun program options root buffer pos h => ?_, ?_, ?_⟩
  · exact Access.inTurn_within (fun request _ h => request.safe_access h) requests (Nat.zero_le _)
  · exact (program.safe_access options root h).within
  · intro count request hrequest cursor error last hrun
    have hexact {size : Nat} (h : (Reader.exact size).run cursor = (.error error, last)) :
        last = cursor :=
      (Reader.exact_error.mp h).2.2
    simp only [List.mem_cons, List.not_mem_nil, or_false] at hrequest
    rcases hrequest with rfl | rfl | rfl
    · exact hexact (Reader.map_error hrun)
    · exact hexact (Reader.map_error (Reader.map_error hrun))
    · exact hexact (Reader.map_error (Reader.map_error hrun))
  · intro cursor length after hlength request hrequest error last hrun
    simp only [List.mem_cons, List.not_mem_nil, or_false] at hrequest
    rcases hrequest with rfl | rfl
    · exact .inl (Reader.lengthPrefixed_error hlength (Reader.map_error hrun))
    · rcases Reader.text_error hlength (Reader.map_error hrun) with hshort | ⟨hlast, herror⟩
      · exact .inl hshort
      · exact .inr ⟨rfl, herror, hlast⟩

/-- A text with four of five bytes, a read of too many, two bytes that are no text and a varint that is
cut off; nine packed flags in one byte. -/
theorem reads_stay_within_failures :
    let requests := [Request.text, .exact 9, .text, .varint]
    (inTurn Request.read requests (Cursor.start [5, 2, 0xff, 0x28, 0x80])).map (·.2.pos) =
        [1, 1, 4, 5] ∧
      (∀ done ∈ inTurn Request.read requests (Cursor.start [5, 2, 0xff, 0x28, 0x80]),
        Access.Within [5, 2, 0xff, 0x28, 0x80] 0 done) ∧
      Access.Within [9, 1, 0xff] 0 ((Program.read [.array (.scalar .boolean) [] ["b"]] {} .null).run
        (Cursor.start [9, 1, 0xff])) ∧
      (Request.exact 9).read.run ⟨1, [2, 0xff, 0x28, 0x80]⟩
        = (.error (.unexpectedEof 1 9 4), ⟨1, [2, 0xff, 0x28, 0x80]⟩) ∧
      Request.text.read.run ⟨1, [2, 0xff, 0x28, 0x80]⟩ = (.error (.invalidUtf8 2), ⟨4, [0x80]⟩) := by
  intro requests
  obtain ⟨hturns, hprogram, hfixed, hprefixed⟩ := reads_stay_within
  have hexact : (Request.exact 9).read.run ⟨1, [2, 0xff, 0x28, 0x80]⟩ =
      (.error (.unexpectedEof 1 9 4), ⟨1, [2, 0xff, 0x28, 0x80]⟩) := rfl
  have htext : Request.text.read.run ⟨1, [2, 0xff, 0x28, 0x80]⟩ =
      (.error (.invalidUtf8 2), ⟨4, [0x80]⟩) := rfl
  refine ⟨rfl, (hturns _ requests).2.1, (hprogram _ {} .null _ 0 (Nat.zero_le _)).1, ?_, ?_⟩
  · rw [hexact, ← hfixed 9 (.exact 9) (by simp) _ _ _ hexact]
  · rcases hprefixed ⟨1, [2, 0xff, 0x28, 0x80]⟩ 2 ⟨2, [0xff, 0x28, 0x80]⟩ rfl .text (by simp) _ _ htext
      with ⟨-, heof⟩ | ⟨-, -, hlast⟩
    · cases heof
    · rw [htext, hlast]

end Positional
