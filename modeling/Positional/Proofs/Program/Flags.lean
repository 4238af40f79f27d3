import Positional.Proofs.Program.Echo

/-!
# Arrays of flags

An array of flags goes over the wire as its count and its flags packed eight to a byte, behind the
number of those bytes (`Wire.Packs`). Reading takes any bytes of that number, so long as there are
enough for the count: surplus bytes and the bits behind the last flag do not matter (`Wire.Unpacks`).
-/

namespace Positional

namespace Wire

/-- The bytes hold the flags, the first in the lowest bit, and zeros behind the last; they are as few
as can be. -/
structure Packs (flags : List Bool) (packed : Bytes) : Prop where
  length : packed.length = (flags.length + 7) / 8
  bits : ∀ j byte, packed[j]? = some byte → ∀ k < 8,
    byte.toNat.testBit k = if h : 8 * j + k < flags.length then flags[8 * j + k] else false

def Unpacks (packed : Bytes) (flags : List Bool) : Prop :=
  ∀ i (h : i < flags.length), ∃ byte, packed[i / 8]? = some byte ∧ flags[i] = byte.toNat.testBit (i % 8)

theorem packs_packBits (flags : List Bool) : Packs flags (packBits flags) where
  length := length_packBits flags
  bits j byte hbyte k hk := by
    rw [testBit_packBits hbyte hk]
    split
    · simp [*]
    · simp_all

theorem unpacks_unpackBits (h : packedSize count ≤ packed.length) :
    Unpacks packed (unpackBits count packed) := by
  intro i hi
  rw [length_unpackBits] at hi
  have hbyte : i / 8 < packed.length := by
    rw [packedSize] at h
    omega
  exact ⟨_, List.getElem?_eq_getElem hbyte, by simp [unpackBits, hbyte]⟩

end Wire

namespace Reader

section
variable {counted sized payload : Bytes} {count size : UInt64}

theorem run_elementCount {limits : Limits} (h : Wire.IsVarint counted count)
    (hlimit : count.toNat ≤ limits.arrayElements) (pos : Nat) (rest : Bytes) :
    (elementCount limits).run ⟨pos, counted ++ rest⟩
      = (.ok count.toNat, ⟨pos + counted.length, rest⟩) := by
  rw [elementCount, run_bind_ok (run_varint_isVarint h pos rest)]
  simp only [if_neg (Nat.not_lt.mpr hlimit)]
  rfl

theorem run_lengthPrefixed (h : Wire.IsVarint sized size) (hsize : payload.length = size.toNat)
    (pos : Nat) (rest : Bytes) : lengthPrefixed.run ⟨pos, sized ++ (payload ++ rest)⟩
      = (.ok payload, ⟨pos + sized.length + payload.length, rest⟩) := by
  rw [lengthPrefixed, run_bind_ok (run_varint_isVarint h pos (payload ++ rest)), exact_ok, ← hsize]
  simp

theorem run_packedFlags (count : Nat) (h : Wire.IsVarint sized size)
    (hsize : payload.length = size.toNat) (pos : Nat) (rest : Bytes) :
    (packedFlags count).run ⟨pos, sized ++ (payload ++ rest)⟩ =
      (if Wire.packedSize count ≤ payload.length then .ok (Wire.unpackBits count payload)
        else .error (.unexpectedEof pos (Wire.packedSize count) payload.length),
      ⟨pos + sized.length + payload.length, rest⟩) := by
  rw [packedFlags, run_bind_ok (run_position _), run_bind_ok (run_lengthPrefixed h hsize pos rest)]
  by_cases hfew : payload.length < Wire.packedSize count
  · simp only [if_pos hfew, if_neg (Nat.not_le.mpr hfew)]
    rfl
  · simp only [if_neg hfew, if_pos (Nat.le_of_not_lt hfew)]
    rfl

end

end Reader

namespace Block

open Reader

/-- An array of flags in the document is written as its count, the number of bytes and the bytes that
the flags are packed in. -/
theorem emit_flags {path : Path} {data : Value} (h : data.lookup path = some (.array (flags.map .bool)))
    (inner : Program) : (array (.scalar .boolean) inner path).emit data =
      .ofBytes (Wire.varint flags.length ++ Wire.lengthPrefixed (Wire.packBits flags)) := by
  refine emit_array_ok.mpr ⟨rfl, _, _, h, ?_, emitElements_boolean_ok.mpr ⟨flags, rfl, rfl⟩⟩
  rw [List.length_map]

theorem read_flags {counted sized payload : Bytes} {count size : UInt64} {limits : Limits}
    (hcount : Wire.IsVarint counted count) (hlimit : count.toNat ≤ limits.arrayElements)
    (hsize : Wire.IsVarint sized size) (hlength : payload.length = size.toNat)
    (inner : Program) (path : Path) (depth pos : Nat) (rest : Bytes) :
    ((array (.scalar .boolean) inner path).read limits depth).run
        ⟨pos, counted ++ (sized ++ (payload ++ rest))⟩ =
      (if Wire.packedSize count.toNat ≤ payload.length then
          .ok [(path, .array ((Wire.unpackBits count.toNat payload).map .bool))]
        else .error (.unexpectedEof (pos + counted.length) (Wire.packedSize count.toNat) payload.length),
      ⟨pos + counted.length + sized.length + payload.length, rest⟩) := by
  have hflags := run_packedFlags count.toNat hsize hlength (pos + counted.length) rest
  have hcheck : (liftM Kind.boolean.check : Reader Unit).run
      ⟨pos, counted ++ (sized ++ (payload ++ rest))⟩ = (.ok (), ⟨pos, _⟩) := rfl
  rw [read, run_bind_ok hcheck, run_bind_ok (run_elementCount hcount hlimit pos _)]
  simp only [elements, bind_assoc, pure_bind]
  by_cases henough : Wire.packedSize count.toNat ≤ payload.length
  · rw [if_pos henough] at hflags ⊢
    rw [run_bind_ok hflags]
    rfl
  · rw [if_neg henough] at hflags ⊢
    exact run_bind_error hflags

theorem read_packed {limits : Limits} {flags : List Bool} (h : limits.Admits flags.length)
    (inner : Program) (path : Path) (depth pos : Nat) (rest : Bytes) :
    let written := Wire.varint flags.length ++ Wire.lengthPrefixed (Wire.packBits flags)
    ((array (.scalar .boolean) inner path).read limits depth).run ⟨pos, written ++ rest⟩
      = (.ok [(path, .array (flags.map .bool))], ⟨pos + written.length, rest⟩) := by
  obtain ⟨hlimit, hsize⟩ := h
  have hcount : (UInt64.ofNat flags.length).toNat = flags.length := UInt64.toNat_ofNat_of_lt' hsize
  have hpacked : (UInt64.ofNat (Wire.packBits flags).length).toNat = (Wire.packBits flags).length := by
    refine UInt64.toNat_ofNat_of_lt' ?_
    rw [Wire.length_packBits, Wire.packedSize]
    omega
  have hread := read_flags (Wire.isVarint_varint (UInt64.ofNat flags.length)) (hcount.symm ▸ hlimit)
    (Wire.isVarint_varint (UInt64.ofNat (Wire.packBits flags).length)) hpacked.symm inner path depth
    pos rest
  rw [hcount, hpacked, if_pos (by simp), Wire.unpackBits_packBits] at hread
  simpa [Wire.lengthPrefixed, Nat.add_assoc] using hread

/-- An array of flags is written as their count, the number of the bytes that they are packed in and
those bytes, which are read back. Whatever count, number and bytes are on the wire, the flags are read
exactly if the bytes are enough for the count, and all of them are taken. -/
theorem flags_packed (inner : Program) (path : Path) :
    (∀ data (flags : List Bool), data.lookup path = some (.array (flags.map .bool)) →
      ∃ packed written, Wire.Packs flags packed ∧
        written = Wire.varint flags.length ++ (Wire.varint packed.length ++ packed) ∧
        (array (.scalar .boolean) inner path).emit data = .ofBytes written ∧
        ∀ limits depth pos rest, limits.Admits flags.length →
          ((array (.scalar .boolean) inner path).read limits depth).run ⟨pos, written ++ rest⟩
            = (.ok [(path, .array (flags.map .bool))], ⟨pos + written.length, rest⟩)) ∧
    ∀ limits depth pos counted count sized size payload rest, Wire.IsVarint counted count →
      count.toNat ≤ limits.arrayElements → Wire.IsVarint sized size → payload.length = size.toNat →
      ∃ outcome, ((array (.scalar .boolean) inner path).read limits depth).run
          ⟨pos, counted ++ (sized ++ (payload ++ rest))⟩
            = (outcome, ⟨pos + counted.length + sized.length + payload.length, rest⟩) ∧
        ((∃ writes, outcome = .ok writes) ↔ (count.toNat + 7) / 8 ≤ payload.length) ∧
        ∀ writes, outcome = .ok writes → ∃ flags : List Bool, flags.length = count.toNat ∧
          Wire.Unpacks payload flags ∧ writes = [(path, .array (flags.map .bool))] := by
  constructor
  · intro data flags h
    refine ⟨_, _, Wire.packs_packBits flags, rfl, emit_flags h inner, ?_⟩
    exact fun limits depth pos rest hlimit => read_packed hlimit inner path depth pos rest
  · intro limits depth pos counted count sized size payload rest hcount hlimit hsize hlength
    refine ⟨_, read_flags hcount hlimit hsize hlength inner path depth pos rest, ?_⟩
    by_cases henough : Wire.packedSize count.toNat ≤ payload.length
    · rw [if_pos henough]
      refine ⟨iff_of_true ⟨_, rfl⟩ henough, ?_⟩
      rintro _ ⟨⟩
      exact ⟨_, Wire.length_unpackBits .., Wire.unpacks_unpackBits henough, rfl⟩
    · rw [if_neg henough]
      exact ⟨iff_of_false (by simp) henough, by simp⟩

/-- Nine flags in two bytes; nine again behind an over-long count, in three bytes that are all ones;
and nine in one byte, which is not enough. -/
theorem flags_packed_nine :
    let flags := [true, false, true, false, false, false, false, false, true]
    let data : Value := .object [("f", .array (flags.map .bool))]
    let block := array (.scalar .boolean) [] ["f"]
    block.emit data = .ofBytes [9, 2, 5, 1] ∧
      (block.read {} 0).run ⟨0, [9, 2, 5, 1, 7]⟩
        = (.ok [(["f"], .array (flags.map .bool))], ⟨4, [7]⟩) ∧
      (∃ writes, (block.read {} 0).run ⟨0, [0x89, 0, 3, 255, 255, 255, 7]⟩ = (.ok writes, ⟨6, [7]⟩)) ∧
      ∃ error, (block.read {} 0).run ⟨0, [9, 1, 255, 7]⟩ = (.error error, ⟨3, [7]⟩) := by
  intro flags data block
  obtain ⟨hwritten, hread⟩ := flags_packed [] ["f"]
  obtain ⟨packed, written, -, -, hemit, hback⟩ := hwritten data flags rfl
  have hbytes : block.emit data = .ofBytes [9, 2, 5, 1] := by
    have hpacked : Wire.packBits flags = [5, 1] := by decide +kernel
    rw [emit_flags rfl, Wire.lengthPrefixed, hpacked, Wire.varint_of_lt (by decide),
      Wire.varint_of_lt (by decide)]
    rfl
  obtain rfl : written = [9, 2, 5, 1] := Emission.ofBytes_inj.mp (hemit.symm.trans hbytes)
  have hnine : Wire.IsVarint [9] 9 := Wire.isVarint_byte (by decide)
  have hlong : Wire.IsVarint [0x89, 0] 9 :=
    ⟨by decide, ⟨[0x89], 0, rfl, List.forall_mem_singleton.mpr (by decide), by decide⟩, by decide⟩
  have hthree : Wire.IsVarint [3] 3 := Wire.isVarint_byte (by decide)
  have hone : Wire.IsVarint [1] 1 := Wire.isVarint_byte (by decide)
  refine ⟨hbytes, hback {} 0 0 [7] ⟨by decide, by decide⟩, ?_, ?_⟩
  · obtain ⟨_, hrun, hok, -⟩ := hread {} 0 0 [0x89, 0] 9 [3] 3 [255, 255, 255] [7] hlong (by decide)
      hthree rfl
    obtain ⟨writes, rfl⟩ := hok.mpr (by decide)
    exact ⟨writes, hrun⟩
  · obtain ⟨outcome, hrun, hok, -⟩ := hread {} 0 0 [9] 9 [1] 1 [255] [7] hnine (by decide) hone rfl
    cases outcome with
    | error error => exact ⟨error, hrun⟩
    | ok writes => exact absurd (hok.mp ⟨writes, rfl⟩) (by decide)

end Block

end Positional
