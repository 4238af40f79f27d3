import Positional.Codec
import Positional.Proofs.Wire.Returns

/-!
# Writing only appends

Every writer appends its emission to whatever buffer it is run on, and fails as its emission does:
the primitives first, then the kinds, and from them the blocks. What a program writes is therefore the
same behind every buffer (`Program.run_write`).
-/

namespace Positional

namespace Writer

variable {first second writer : Writer Unit} {emission other : Emission}

/-- What a writer does to every buffer. -/
def Appends (writer : Writer Unit) (emission : Emission) : Prop :=
  ∀ buffer, writer.run buffer = (emission.toExcept.map fun _ => (), buffer ++ emission.bytes)

theorem appends_return : Appends (return ()) .empty := by
  intro buffer
  change (Except.ok (), buffer) = (Except.ok (), buffer ++ [])
  rw [List.append_nil]

theorem appends_throw (error : Error) : Appends (throw error) (.fail error) := by
  intro buffer
  change (Except.error error, buffer) = (Except.error error, buffer ++ [])
  rw [List.append_nil]

theorem Appends.bind (h : Appends first emission) (h' : Appends second other) :
    Appends (first >>= fun _ => second) (emission ++ other) := by
  intro buffer
  obtain ⟨bytes, failure⟩ := emission
  cases failure with
  | none =>
    obtain ⟨more, failure⟩ := other
    have hbytes : buffer ++ bytes ++ more = buffer ++ (bytes ++ more) := List.append_assoc ..
    rw [Reader.run_bind_ok (h buffer), h']
    cases failure <;> exact congrArg (Prod.mk _) hbytes
  | some error => exact Reader.run_bind_error (h buffer)

theorem Appends.eq (h : Appends writer emission) (he : emission = other) : Appends writer other :=
  he ▸ h

theorem ofExcept_ok_bind (a : α) (next : α → Writer β) : (ofExcept (.ok a) >>= next) = next a := rfl

-- ---------------------------------------------------------------------------
-- Primitives
-- ---------------------------------------------------------------------------

theorem appends_extend (bytes : Bytes) : Appends (extend bytes) (.ofBytes bytes) :=
  fun _ => rfl

theorem appends_push (byte : UInt8) : Appends (push byte) (.ofBytes [byte]) :=
  appends_extend [byte]

theorem appends_varint (n : Nat) : Appends (varint n) (.ofBytes (Wire.varint n)) := by
  induction n using Nat.strongRecOn with
  | ind n ih =>
    rw [varint, Wire.varint]
    split
    · exact appends_push _
    · exact (appends_push _).bind (ih (n / 128) (by omega))

theorem appends_svarint (n : Int64) : Appends (svarint n) (.ofBytes (Wire.svarint n)) :=
  appends_varint _

theorem appends_double (x : Binary64) : Appends (double x) (.ofBytes (Wire.double x)) :=
  appends_extend _

theorem appends_boolean (flag : Bool) : Appends (boolean flag) (.ofBytes (Wire.boolean flag)) :=
  appends_varint _

theorem appends_fixed64 (n : Int64) : Appends (fixed64 n) (.ofBytes (Wire.fixed64 n)) :=
  appends_extend _

theorem appends_lengthPrefixed (bytes : Bytes) :
    Appends (lengthPrefixed bytes) (.ofBytes (Wire.lengthPrefixed bytes)) :=
  (appends_varint _).bind (appends_extend _)

theorem appends_text (content : String) :
    Appends (text content) (.ofBytes (Wire.lengthPrefixed (Wire.utf8 content))) :=
  appends_lengthPrefixed _

end Writer

open Writer

-- ---------------------------------------------------------------------------
-- Scalars
-- ---------------------------------------------------------------------------

theorem Kind.appends_put (kind : Kind) (path : Path) (value : Value) :
    Appends (kind.put path value) (kind.emit path value) := by
  cases kind with
  | string =>
    cases value with
    | text content => exact appends_text content
    | _ => exact appends_throw _
  | float =>
    simp only [put, emit, encode?]
    cases value.toBinary64? with
    | some x => exact appends_double x
    | none => exact appends_throw _
  | int =>
    simp only [put, emit, encode?]
    cases value.toInt64? with
    | some n => exact appends_svarint n
    | none => exact appends_throw _
  | uint =>
    simp only [put, emit, encode?]
    cases value.toUInt64? with
    | some n => exact appends_varint _
    | none => exact appends_throw _
  | boolean =>
    cases value with
    | bool flag => exact appends_boolean flag
    | _ => exact appends_throw _
  | date =>
    cases value with
    | date ticks => exact appends_fixed64 ticks
    | int ticks => exact appends_fixed64 ticks
    | _ => exact appends_throw _
  | buffer =>
    simp only [put, emit, encode?]
    cases value.toBytes? with
    | some content => exact appends_lengthPrefixed content
    | none => exact appends_throw _
  | null => exact appends_return
  | unknown name => exact appends_throw _

theorem appends_putScalars (kind : Kind) (path : Path) (index : Nat) (items : List Value) :
    Appends (putScalars kind path index items)
      (.concat (items.mapIdx fun i item => kind.emit (path.child (toString (index + i))) item)) := by
  induction items generalizing index with
  | nil => exact appends_return
  | cons item rest ih =>
    refine ((kind.appends_put _ item).bind (ih (index + 1))).eq ?_
    simp only [List.mapIdx_cons, Emission.concat, Nat.add_zero, Nat.add_assoc, Nat.add_comm 1]

theorem appends_putElements (kind : Kind) (path : Path) (items : List Value) :
    Appends (putElements kind path items) (emitElements kind path items) := by
  cases kind with
  | boolean =>
    rw [putElements, emitElements]
    cases flagsOf path 0 items with
    | ok flags => exact appends_lengthPrefixed _
    | error error => exact appends_throw error
  | _ =>
    refine (appends_putScalars _ path 0 items).eq ?_
    simp only [emitElements, Nat.zero_add]

-- ---------------------------------------------------------------------------
-- Blocks
-- ---------------------------------------------------------------------------

theorem appends_forM {put : α → Writer Unit} {emit : α → Emission} (items : List α)
    (h : ∀ item, Appends (put item) (emit item)) :
    Appends (items.forM put) (.concat (items.map emit)) := by
  induction items with
  | nil => exact appends_return
  | cons item rest ih => exact (h item).bind ih

namespace Block

mutual

theorem appends_put : (block : Block) → (data : Value) →
    Appends (block.put data) (block.emit data)
  | .primitive kind path, data => by
    cases kind with
    | null => exact appends_return
    | unknown name => exact appends_throw _
    | _ =>
      simp only [Block.put, Block.emit, Kind.check]
      cases data.require path with
      | ok value =>
        simp only [ofExcept_ok_bind]
        exact Kind.appends_put _ path value
      | error error => exact appends_throw error
  | .array element inner path, data => by
    rw [Block.put, Block.emit]
    cases element.check with
    | error error => exact appends_throw error
    | ok =>
      cases data.requireArray path with
      | error error => exact appends_throw error
      | ok items =>
        refine (appends_varint items.length).bind ?_
        cases element with
        | object => exact appends_forM items fun item => appends_putAll inner item
        | scalar kind => exact appends_putElements kind path items
  | .discriminator kind options field path, data => by
    rw [Block.put, Block.emit]
    cases kind.check with
    | error error => exact appends_throw error
    | ok =>
      cases data.discriminatorTag path field with
      | error error => exact appends_throw error
      | ok pair =>
        obtain ⟨tag, tagPath⟩ := pair
        exact (kind.appends_put tagPath tag).bind (appends_putOption options tag data)

theorem appends_putAll : (program : List Block) → (data : Value) →
    Appends (putAll program data) (emitAll program data)
  | [], _ => appends_return
  | block :: rest, data => (appends_put block data).bind (appends_putAll rest data)

theorem appends_putOption : (options : List (Tag × List Block)) → (tag data : Value) →
    Appends (putOption options tag data) (emitOption options tag data)
  | [], _, _ => appends_return
  | (option, body) :: rest, tag, data => by
    rw [putOption, emitOption]
    split
    · exact appends_putAll body data
    · exact appends_putOption rest tag data

end

end Block

namespace Program

/-- The encoding of a document is what a run on an empty buffer leaves behind, if it succeeds. -/
theorem encode_eq (program : Program) (data : Value) :
    program.encode data = (Block.emitAll program data).toExcept := by
  rw [encode, write, Block.appends_putAll program data []]
  rcases Block.emitAll program data with ⟨bytes, failure⟩
  cases failure <;> rfl

/-- A run appends what the program emits, whatever the buffer held, and fails as the encoding does. -/
theorem run_write (program : Program) (data : Value) (buffer : Bytes) :
    (program.write data).run buffer =
      ((program.encode data).map fun _ => (), buffer ++ (Block.emitAll program data).bytes) := by
  rw [encode_eq]
  exact Block.appends_putAll program data buffer

end Program

end Positional
