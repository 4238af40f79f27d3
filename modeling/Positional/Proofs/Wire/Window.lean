import Positional.Proofs.Wire.Items

/-!
# Reading by offsets

A reader can also hold the whole buffer and an offset into it. It then takes bytes by slicing and
indexing, finds where a text began by a subtraction, and any of these could be out of range. Here
they are partial: an `Access` is a reader with such steps, and a step out of range is a fault.
`Access.SafeAt` says that none occurs and that the outcome is a cursor's.
-/

namespace Positional

structure Window where
  buffer : Bytes
  offset : Nat

/-- A reader over a window; without a result, it is at fault. -/
abbrev Access := ExceptT Error (StateT Window Option)

namespace Error

def offset? : Error → Option Nat
  | unexpectedEof offset _ _ | varintOverflow offset | invalidUtf8 offset => some offset
  | _ => none

end Error

namespace Access

/-- A step that is at fault where its result is missing. -/
def require (found : Option α) : Access α :=
  fun window => found.map fun a => (.ok a, window)

def slice? (bytes : Bytes) (start stop : Nat) : Option Bytes :=
  if start ≤ stop ∧ stop ≤ bytes.length then some ((bytes.take stop).drop start) else none

def minus? (m n : Nat) : Option Nat :=
  if n ≤ m then some (m - n) else none

def position : Access Nat :=
  return (← get).offset

def remaining : Access Nat := do
  let window ← get
  require (minus? window.buffer.length window.offset)

/-- Moves the offset, which does not go back and stays in the buffer. -/
def moveTo (stop : Nat) : Access Unit :=
  fun window =>
    if window.offset ≤ stop ∧ stop ≤ window.buffer.length then some (.ok (), ⟨window.buffer, stop⟩)
    else none

def exact (count : Nat) : Access Bytes := do
  let start ← position
  let left ← remaining
  if left < count then throw (.unexpectedEof start count left)
  else
    moveTo (start + count)
    let window ← get
    require (slice? window.buffer start (start + count))

def byte : Access UInt8 := do
  let one ← exact 1
  require one[0]?

def varintFrom (start : Nat) (value : UInt64) (index : Nat) : (left : Nat) → Access UInt64
  | 0 => throw (.varintOverflow start)
  | left + 1 => do
    let next ← byte
    let group := (next &&& 0x7f).toUInt64
    if left == 0 && 1 < group then throw (.varintOverflow start)
    else
      let value := value ||| group <<< UInt64.ofNat (7 * index)
      if next &&& 0x80 == 0 then return value
      else varintFrom start value (index + 1) left

def varint : Access UInt64 := do
  let start ← position
  varintFrom start 0 0 10

def svarint : Access Int64 := do
  let code ← varint
  return (code >>> 1).toInt64 ^^^ -(code &&& 1).toInt64

def word : Access UInt64 := do
  let raw ← exact 8
  require (if raw.length = 8 then some (UInt64.ofNat (Wire.ofLittleEndian raw)) else none)

def double : Access Binary64 :=
  return ⟨← word⟩

def boolean : Access Bool :=
  return (← varint) != 0

def fixed64 : Access Int64 :=
  return (← word).toInt64

def lengthPrefixed : Access Bytes := do
  let length ← varint
  exact length.toNat

def text : Access String := do
  let content ← lengthPrefixed
  let stop ← position
  let start ← require (minus? stop content.length)
  match Wire.ofUtf8? content with
  | some text => return text
  | none => throw (.invalidUtf8 start)

def packedFlags (count : Nat) : Access (List Bool) := do
  let start ← position
  let packed ← lengthPrefixed
  if packed.length < Wire.packedSize count then
    throw (.unexpectedEof start (Wire.packedSize count) packed.length)
  else (List.range count).mapM fun i =>
    require (packed[i / 8]?.map fun byte => byte.toNat.testBit (i % 8))

def timesAfter (access : Access α) (done : List α) : (count : Nat) → Access (List α)
  | 0 => return done.reverse
  | count + 1 => do
    let item ← access
    timesAfter access (item :: done) count

def times (count : Nat) (access : Access α) : Access (List α) :=
  timesAfter access [] count

end Access

def Request.access : Request → Access Item
  | varint => return .varint (← Access.varint)
  | svarint => return .svarint (← Access.svarint)
  | double => return .double (← Access.double)
  | boolean => return .boolean (← Access.boolean)
  | fixed64 => return .fixed64 (← Access.fixed64)
  | bytes => return .bytes (← Access.lengthPrefixed)
  | text => return .text (← Access.text)
  | exact count => return .bytes (← Access.exact count)

namespace Access

-- ---------------------------------------------------------------------------
-- Runs
-- ---------------------------------------------------------------------------

theorem run_bind_ok {access : Access α} {next : α → Access β}
    (h : access.run window = some (.ok a, after)) :
    (access >>= next).run window = (next a).run after := by
  change (access.run window).bind _ = _
  rw [h]
  rfl

theorem run_bind_error {access : Access α} {next : α → Access β}
    (h : access.run window = some (.error error, after)) :
    (access >>= next).run window = some (.error error, after) := by
  change (access.run window).bind _ = _
  rw [h]
  rfl

theorem run_get (window : Window) : (get : Access Window).run window = some (.ok window, window) :=
  rfl

theorem run_position (window : Window) : position.run window = some (.ok window.offset, window) :=
  rfl

theorem run_require (found : Option α) (window : Window) :
    (require found).run window = found.map fun a => (.ok a, window) :=
  rfl

/-- From an offset the access comes, without a fault, to the outcome of the reader, at an offset in
the buffer that is not before; a failure reports none beyond. -/
def SafeAt (access : Access α) (reader : Reader α) (buffer : Bytes) (offset : Nat) : Prop :=
  ∃ outcome stop, offset ≤ stop ∧ stop ≤ buffer.length ∧
    reader.run ⟨offset, buffer.drop offset⟩ = (outcome, ⟨stop, buffer.drop stop⟩) ∧
    access.run ⟨buffer, offset⟩ = some (outcome, ⟨buffer, stop⟩) ∧
    ∀ error, outcome = .error error → ∀ place ∈ error.offset?, place ≤ stop

variable {access : Access α} {reader : Reader α} {buffer : Bytes} {offset : Nat}

theorem SafeAt.of_ok (hle : offset ≤ stop) (hwithin : stop ≤ buffer.length)
    (hreader : reader.run ⟨offset, buffer.drop offset⟩ = (.ok a, ⟨stop, buffer.drop stop⟩))
    (haccess : access.run ⟨buffer, offset⟩ = some (.ok a, ⟨buffer, stop⟩)) :
    SafeAt access reader buffer offset :=
  ⟨.ok a, stop, hle, hwithin, hreader, haccess, fun _ heq => nomatch heq⟩

theorem SafeAt.of_error (h : offset ≤ buffer.length)
    (hreader : reader.run ⟨offset, buffer.drop offset⟩ = (.error error, ⟨offset, buffer.drop offset⟩))
    (haccess : access.run ⟨buffer, offset⟩ = some (.error error, ⟨buffer, offset⟩))
    (hplace : ∀ place ∈ error.offset?, place ≤ offset) : SafeAt access reader buffer offset :=
  ⟨.error error, offset, Nat.le_refl _, h, hreader, haccess, fun _ heq => Except.error.inj heq ▸ hplace⟩

theorem SafeAt.pure (a : α) (h : offset ≤ buffer.length) :
    SafeAt (Pure.pure a) (Pure.pure a) buffer offset :=
  .of_ok (Nat.le_refl _) h rfl rfl

theorem SafeAt.throw {error : Error} (h : offset ≤ buffer.length)
    (hplace : ∀ place ∈ error.offset?, place ≤ offset) :
    SafeAt (throw error : Access α) (throw error) buffer offset :=
  .of_error h rfl rfl hplace

theorem SafeAt.bind {next : α → Access β} {next' : α → Reader β}
    (h : SafeAt access reader buffer offset) (hn : ∀ a stop, offset ≤ stop → stop ≤ buffer.length →
      reader.run ⟨offset, buffer.drop offset⟩ = (.ok a, ⟨stop, buffer.drop stop⟩) →
      SafeAt (next a) (next' a) buffer stop) :
    SafeAt (access >>= next) (reader >>= next') buffer offset := by
  obtain ⟨outcome, stop, hle, hwithin, hreader, haccess, herror⟩ := h
  cases outcome with
  | error error =>
    exact ⟨_, stop, hle, hwithin, Reader.run_bind_error hreader, run_bind_error haccess,
      fun _ heq => herror _ (Except.error.inj heq ▸ rfl)⟩
  | ok a =>
    obtain ⟨outcome, last, hle', hwithin', hreader', haccess', herror'⟩ :=
      hn a stop hle hwithin hreader
    exact ⟨outcome, last, Nat.le_trans hle hle', hwithin', Reader.run_bind_ok hreader ▸ hreader',
      run_bind_ok haccess ▸ haccess', herror'⟩

theorem SafeAt.map (h : SafeAt access reader buffer offset) (f : α → β) :
    SafeAt (do return f (← access)) (do return f (← reader)) buffer offset :=
  h.bind fun a _ _ hwithin _ => .pure (f a) hwithin

theorem SafeAt.start {next : Nat → Access α} {next' : Nat → Reader α} (h : offset ≤ buffer.length)
    (hn : SafeAt (next offset) (next' offset) buffer offset) :
    SafeAt (position >>= next) (Reader.position >>= next') buffer offset := by
  have hposition : SafeAt position Reader.position buffer offset :=
    .of_ok (Nat.le_refl _) h rfl rfl
  refine hposition.bind fun start stop _ _ hread => ?_
  obtain ⟨hstart, hstop⟩ := Prod.mk.inj (Reader.run_position _ ▸ hread)
  cases hstart
  obtain rfl : offset = stop := congrArg Cursor.pos hstop
  exact hn

theorem SafeAt.found {a : α} {next : α → Access β} {reader : Reader β}
    (h : SafeAt (next a) reader buffer offset) :
    SafeAt (require (some a) >>= next) reader buffer offset :=
  h

theorem SafeAt.ite {access' : Access α} {reader' : Reader α} [Decidable c]
    (hy : c → SafeAt access reader buffer offset) (hn : ¬ c → SafeAt access' reader' buffer offset) :
    SafeAt (if c then access else access') (if c then reader else reader') buffer offset := by
  split
  · exact hy ‹_›
  · exact hn ‹_›

-- ---------------------------------------------------------------------------
-- Primitives
-- ---------------------------------------------------------------------------

theorem run_remaining (h : offset ≤ buffer.length) :
    remaining.run ⟨buffer, offset⟩ = some (.ok (buffer.length - offset), ⟨buffer, offset⟩) := by
  rw [remaining, run_bind_ok (run_get _), run_require, minus?, if_pos h]
  rfl

theorem run_moveTo (hle : offset ≤ stop) (hwithin : stop ≤ buffer.length) :
    (moveTo stop).run ⟨buffer, offset⟩ = some (.ok (), ⟨buffer, stop⟩) :=
  if_pos ⟨hle, hwithin⟩

theorem run_exact (count : Nat) (h : offset ≤ buffer.length) : (exact count).run ⟨buffer, offset⟩ =
    if buffer.length - offset < count then
      some (.error (.unexpectedEof offset count (buffer.length - offset)), ⟨buffer, offset⟩)
    else some (.ok ((buffer.drop offset).take count), ⟨buffer, offset + count⟩) := by
  rw [exact, run_bind_ok (run_position _), run_bind_ok (run_remaining h)]
  split
  · rfl
  · have hstop : offset + count ≤ buffer.length := by omega
    have hslice : slice? buffer offset (offset + count) = some ((buffer.drop offset).take count) := by
      rw [slice?, if_pos ⟨Nat.le_add_right .., hstop⟩, List.take_drop]
    rw [run_bind_ok (run_moveTo (Nat.le_add_right ..) hstop), run_bind_ok (run_get _),
      run_require, hslice]
    rfl

theorem safe_exact (count : Nat) (h : offset ≤ buffer.length) :
    SafeAt (exact count) (Reader.exact count) buffer offset := by
  have hlength : (buffer.drop offset).length = buffer.length - offset := List.length_drop
  by_cases hshort : buffer.length - offset < count
  · refine .of_error h (Reader.run_exact_short (hlength ▸ hshort)) ?_ fun place hplace => ?_
    · rw [run_exact count h, if_pos hshort, hlength]
    · cases hplace
      exact Nat.le_refl _
  · have hread : (Reader.exact count).run ⟨offset, buffer.drop offset⟩ =
        (.ok ((buffer.drop offset).take count), ⟨offset + count, buffer.drop (offset + count)⟩) :=
      Reader.exact_ok.mpr ⟨hlength ▸ Nat.le_of_not_lt hshort, rfl, by rw [List.drop_drop]⟩
    exact .of_ok (Nat.le_add_right ..) (by omega) hread (by rw [run_exact count h, if_neg hshort])

theorem safe_byte (h : offset ≤ buffer.length) : SafeAt byte Reader.byte buffer offset := by
  rcases Nat.eq_or_lt_of_le h with rfl | hmore
  · have hend : (exact 1).run ⟨buffer, buffer.length⟩ =
        some (.error (.unexpectedEof buffer.length 1 0), ⟨buffer, buffer.length⟩) := by
      rw [run_exact 1 h, if_pos (by omega), Nat.sub_self]
    refine .of_error h ?_ (by rw [byte, run_bind_error hend]) fun place hplace => ?_
    · rw [List.drop_length]
      rfl
    · cases hplace
      exact Nat.le_refl _
  · have hdrop : buffer.drop offset = buffer[offset] :: buffer.drop (offset + 1) :=
      List.drop_eq_getElem_cons hmore
    have hone : (exact 1).run ⟨buffer, offset⟩ =
        some (.ok [buffer[offset]], ⟨buffer, offset + 1⟩) := by
      rw [run_exact 1 h, if_neg (by omega), hdrop]
      rfl
    refine .of_ok (Nat.le_succ _) hmore (Reader.byte_ok.mpr ⟨hdrop, rfl⟩) ?_
    rw [byte, run_bind_ok hone]
    rfl

/-- The groups from one on, set above the value so far, are the reader's groups at that place. -/
theorem safe_varintFrom {index left start : Nat} {value : UInt64} (hindex : index + left = 10)
    (hvalue : value.toNat < Nat.pow 128 index) (hstart : start ≤ offset)
    (h : offset ≤ buffer.length) :
    SafeAt (varintFrom start value index left)
      (do return UInt64.ofNat (value.toNat + Nat.pow 128 index * (← Reader.varintGroups start left)))
      buffer offset := by
  -- on the bytes still allowed: what is set so far ends below the place of the next group
  induction left generalizing index value offset with
  | zero =>
    refine SafeAt.throw h fun place hplace => ?_
    cases hplace
    exact hstart
  | succ left ih =>
    have hpow : Nat.pow 128 (index + 1) = Nat.pow 128 index * 128 := rfl
    rw [varintFrom, Reader.varintGroups, bind_assoc]
    refine (safe_byte h).bind fun next stop hle hwithin _ => ?_
    have hgroup : (next &&& 0x7f).toUInt64.toNat = next.toNat % 128 := by
      rw [UInt8.toNat_toUInt64, Wire.toNat_lowBits]
    have hseven : next.toNat % 128 < 128 := Nat.mod_lt _ (by decide)
    have hover : decide (1 < (next &&& 0x7f).toUInt64) = decide (1 < next.toNat % 128) := by
      rw [decide_eq_decide, UInt64.lt_iff_toNat_lt, hgroup]
      rfl
    simp only [hover, Wire.topBit_eq_zero, Bool.and_eq_true, beq_iff_eq, decide_eq_true_eq]
    by_cases hlast : left = 0 ∧ 1 < next.toNat % 128
    · rw [if_pos hlast, if_pos hlast]
      refine SafeAt.throw hwithin fun place hplace => ?_
      cases hplace
      exact Nat.le_trans hstart hle
    · have hset : (value ||| (next &&& 0x7f).toUInt64 <<< UInt64.ofNat (7 * index)).toNat =
          value.toNat + Nat.pow 128 index * (next.toNat % 128) := by
        rw [← hgroup] at hlast hseven ⊢
        exact Wire.toNat_setGroup (by omega) hvalue
          (Wire.setGroup_lt_size (show index + left = 9 by omega) hvalue hseven hlast)
      rw [if_neg hlast, if_neg hlast]
      by_cases hend : next.toNat < 128
      · rw [if_pos hend, if_pos hend, pure_bind, ← hset, UInt64.ofNat_toNat]
        exact SafeAt.pure _ hwithin
      · have hhigher := ih (show index + 1 + left = 10 by omega)
          (hset ▸ Wire.setGroup_lt hvalue hseven) (Nat.le_trans hstart hle) hwithin
        rw [if_neg hend, if_neg hend, bind_assoc]
        simpa only [pure_bind, hset, hpow, Nat.mul_add, Nat.add_assoc, Nat.mul_assoc] using hhigher

theorem safe_varint (h : offset ≤ buffer.length) :
    SafeAt varint Reader.varint buffer offset := by
  refine SafeAt.start h ?_
  have hgroups : SafeAt (varintFrom offset 0 0 10) _ buffer offset :=
    safe_varintFrom rfl (by decide) (Nat.le_refl _) h
  simpa using hgroups

theorem safe_svarint (h : offset ≤ buffer.length) :
    SafeAt svarint Reader.svarint buffer offset := by
  rw [Reader.svarint, funext Wire.unzigzag_eq_words]
  exact (safe_varint h).map _

theorem safe_boolean (h : offset ≤ buffer.length) :
    SafeAt boolean Reader.boolean buffer offset :=
  (safe_varint h).map _

theorem safe_word (h : offset ≤ buffer.length) :
    SafeAt word (do return UInt64.ofNat (Wire.ofLittleEndian (← Reader.exact 8))) buffer offset := by
  refine (safe_exact 8 h).bind fun raw stop _ hwithin hread => ?_
  obtain ⟨hle, rfl, -⟩ := Reader.exact_ok.mp hread
  rw [if_pos (List.length_take_of_le hle)]
  exact SafeAt.pure _ hwithin

theorem safe_double (h : offset ≤ buffer.length) : SafeAt double Reader.double buffer offset := by
  have hword := (safe_word h).map Binary64.mk
  rwa [bind_assoc] at hword

theorem safe_fixed64 (h : offset ≤ buffer.length) :
    SafeAt fixed64 Reader.fixed64 buffer offset := by
  have hword := (safe_word h).map UInt64.toInt64
  rwa [bind_assoc] at hword

theorem safe_lengthPrefixed (h : offset ≤ buffer.length) :
    SafeAt lengthPrefixed Reader.lengthPrefixed buffer offset :=
  (safe_varint h).bind fun length _ _ hwithin _ => safe_exact length.toNat hwithin

theorem safe_text (h : offset ≤ buffer.length) : SafeAt text Reader.text buffer offset := by
  refine (safe_lengthPrefixed h).bind fun content stop _ hwithin hread => SafeAt.start hwithin ?_
  have hbehind : content.length ≤ stop := by
    obtain ⟨length, after, -, hexact⟩ := Reader.bind_ok.mp hread
    obtain ⟨hle, rfl, hlast⟩ := Reader.exact_ok.mp hexact
    obtain rfl : stop = _ := congrArg Cursor.pos hlast
    rw [List.length_take_of_le hle]
    exact Nat.le_add_left ..
  rw [minus?, if_pos hbehind]
  refine SafeAt.found ?_
  cases Wire.ofUtf8? content with
  | some text => exact SafeAt.pure _ hwithin
  | none =>
    refine SafeAt.throw hwithin fun place hplace => ?_
    cases hplace
    exact Nat.sub_le ..

theorem run_mapM_require {found : ι → Option α} {f : ι → α} {items : List ι}
    (h : ∀ item ∈ items, found item = some (f item)) (window : Window) :
    (items.mapM fun item => require (found item)).run window = some (.ok (items.map f), window) := by
  induction items with
  | nil => rfl
  | cons item items ih =>
    obtain ⟨hitem, hitems⟩ := List.forall_mem_cons.mp h
    rw [List.mapM_cons, hitem, run_bind_ok (run_require _ window), run_bind_ok (ih hitems)]
    rfl

theorem safe_packedFlags (count : Nat) (h : offset ≤ buffer.length) :
    SafeAt (packedFlags count) (Reader.packedFlags count) buffer offset := by
  refine SafeAt.start h ((safe_lengthPrefixed h).bind fun packed stop hle hwithin _ => ?_)
  refine SafeAt.ite (fun _ => SafeAt.throw hwithin fun place hplace => ?_) fun henough => ?_
  · cases hplace
    exact hle
  · have hall : ∀ i ∈ List.range count, (packed[i / 8]?.map fun byte => byte.toNat.testBit (i % 8)) =
        some (((packed[i / 8]?).getD 0).toNat.testBit (i % 8)) := by
      intro i hi
      have hbyte : i / 8 < packed.length := by
        rw [Wire.packedSize] at henough
        have hcount := List.mem_range.mp hi
        omega
      rw [List.getElem?_eq_getElem hbyte]
      rfl
    exact .of_ok (Nat.le_refl _) hwithin rfl (run_mapM_require hall _)

theorem safe_timesAfter (h : ∀ offset, offset ≤ buffer.length → SafeAt access reader buffer offset)
    (done : List α) (count : Nat) (hoffset : offset ≤ buffer.length) :
    SafeAt (timesAfter access done count) (Reader.timesAfter reader done count) buffer offset := by
  induction count generalizing done offset with
  | zero => exact SafeAt.pure _ hoffset
  | succ count ih => exact (h offset hoffset).bind fun item _ _ hwithin _ => ih (item :: done) hwithin

end Access

namespace Request

theorem safe_access (request : Request) (h : offset ≤ buffer.length) :
    Access.SafeAt request.access request.read buffer offset := by
  cases request with
  | varint => exact (Access.safe_varint h).map _
  | svarint => exact (Access.safe_svarint h).map _
  | double => exact (Access.safe_double h).map _
  | boolean => exact (Access.safe_boolean h).map _
  | fixed64 => exact (Access.safe_fixed64 h).map _
  | bytes => exact (Access.safe_lengthPrefixed h).map _
  | text => exact (Access.safe_text h).map _
  | exact count => exact (Access.safe_exact count h).map _

end Request

end Positional
