import Positional.Proofs.Wire.Varints

/-!
# The primitives read back

Each reader of a primitive undoes its writer (`returns_varint` and so on), and whatever bytes it
accepts, its writer needs no more (`covers_varint` and so on). A number, length or count beyond 64
bits has no varint: the reader refuses what the writer makes of it.
-/

namespace Positional

namespace Wire

theorem length_boolean (flag : Bool) : (boolean flag).length = 1 := by
  rw [boolean, varint_of_lt (by cases flag <;> decide)]
  rfl

-- ---------------------------------------------------------------------------
-- Texts
-- ---------------------------------------------------------------------------

theorem ofUtf8?_utf8 (text : String) : ofUtf8? (utf8 text) = some text := by
  have hbytes : (⟨(utf8 text).toArray⟩ : ByteArray) = text.toByteArray := by simp [utf8]
  rw [ofUtf8?, hbytes, String.fromUTF8?, dif_pos text.isValidUTF8]
  rfl

theorem utf8_of_ofUtf8? (h : ofUtf8? bytes = some text) : utf8 text = bytes := by
  rw [ofUtf8?, String.fromUTF8?] at h
  split at h
  · cases h
    simp [utf8, String.fromUTF8]
  · cases h

-- ---------------------------------------------------------------------------
-- Packed flags
-- ---------------------------------------------------------------------------

theorem byteOfBits_lt (bits : List Bool) : byteOfBits bits < Nat.pow 2 bits.length := by
  induction bits with
  | nil => decide
  | cons bit rest ih =>
    have hpow : Nat.pow 2 (rest.length + 1) = Nat.pow 2 rest.length * 2 := rfl
    have hbit : bit.toNat ≤ 1 := by cases bit <;> decide
    rw [byteOfBits, List.length_cons]
    omega

theorem testBit_byteOfBits (bits : List Bool) (i : Nat) :
    (byteOfBits bits).testBit i = bits[i]?.getD false := by
  induction bits generalizing i with
  | nil => simp [byteOfBits]
  | cons bit rest ih =>
    cases i with
    | zero => cases bit <;> simp [byteOfBits, Nat.testBit_zero]
    | succ i =>
      have hhalf : (bit.toNat + 2 * byteOfBits rest) / 2 = byteOfBits rest := by
        have hbit : bit.toNat ≤ 1 := by cases bit <;> decide
        omega
      rw [byteOfBits, Nat.testBit_succ, hhalf, ih, List.getElem?_cons_succ]

@[simp] theorem length_packBits (flags : List Bool) :
    (packBits flags).length = packedSize flags.length := by
  simp [packBits]

@[simp] theorem length_unpackBits (count : Nat) (packed : Bytes) :
    (unpackBits count packed).length = count := by
  simp [unpackBits]

theorem testBit_packBits (h : (packBits flags)[j]? = some byte) (hk : k < 8) :
    byte.toNat.testBit k = flags[8 * j + k]?.getD false := by
  have hlt := byteOfBits_lt ((flags.drop (8 * j)).take 8)
  have hle : Nat.pow 2 ((flags.drop (8 * j)).take 8).length ≤ Nat.pow 2 8 :=
    Nat.pow_le_pow_right (by decide) (List.length_take_le ..)
  obtain ⟨hj, rfl⟩ := List.getElem?_eq_some_iff.mp h
  simp only [packBits, List.getElem_map, List.getElem_range]
  rw [toNat_ofNat_byte (Nat.lt_of_lt_of_le hlt hle), testBit_byteOfBits,
    List.getElem?_take_of_lt hk, List.getElem?_drop]

theorem unpackBits_packBits (flags : List Bool) :
    unpackBits flags.length (packBits flags) = flags := by
  apply List.ext_getElem (by simp)
  intro i hi hf
  have hbyte : i / 8 < (packBits flags).length := by
    rw [length_packBits, packedSize]
    omega
  have hindex : 8 * (i / 8) + i % 8 = i := by omega
  have hfound := List.getElem?_eq_getElem hbyte
  simp only [unpackBits, List.getElem_map, List.getElem_range, hfound, Option.getD_some]
  rw [testBit_packBits hfound (Nat.mod_lt i (by decide)), hindex, List.getElem?_eq_getElem hf,
    Option.getD_some]

end Wire

namespace Reader

-- ---------------------------------------------------------------------------
-- Varints
-- ---------------------------------------------------------------------------

theorem run_varintGroups_overflow (h : 2 * Nat.pow 128 left ≤ n) (start pos : Nat) (rest : Bytes) :
    ∃ after, (varintGroups start (left + 1)).run ⟨pos, Wire.varint n ++ rest⟩ =
      (.error (.varintOverflow start), after) := by
  induction left generalizing n pos with
  | zero =>
    have hn : 2 ≤ n := by simpa using h
    by_cases hlt : n < 128
    · rw [Wire.varint_of_lt hlt, List.singleton_append, run_varintGroups_cons,
        Wire.toNat_ofNat_byte (by omega), if_pos (by omega)]
      exact ⟨_, rfl⟩
    · rw [Wire.varint_of_le (by omega), List.cons_append, run_varintGroups_cons,
        Wire.toNat_ofNat_byte (by omega)]
      -- whatever the group is, no byte may follow this one
      split
      · exact ⟨_, rfl⟩
      · rw [if_neg (by omega)]
        exact ⟨_, rfl⟩
  | succ left ih =>
    have hpow : Nat.pow 128 (left + 1) = Nat.pow 128 left * 128 := rfl
    have hpos : 0 < Nat.pow 128 left := Nat.pow_pos (by decide)
    obtain ⟨after, hrest⟩ := ih (n := n / 128) (by omega) (pos + 1)
    rw [Wire.varint_of_le (by omega), List.cons_append, run_varintGroups_cons,
      Wire.toNat_ofNat_byte (by omega), if_neg (by omega), if_neg (by omega), hrest]
    exact ⟨_, rfl⟩

theorem returns_varint_toNat (n : UInt64) : Returns True varint (Wire.varint n.toNat) n :=
  fun pos rest => .inl (run_varint_isVarint (Wire.isVarint_varint n) pos rest)

theorem returns_varint (h : n < UInt64.size) :
    Returns True varint (Wire.varint n) (UInt64.ofNat n) := by
  have hreturns := returns_varint_toNat (UInt64.ofNat n)
  rwa [UInt64.toNat_ofNat_of_lt' h] at hreturns

theorem varint_overflow (h : UInt64.size ≤ n) (pos : Nat) (rest : Bytes) :
    ∃ error after, varint.run ⟨pos, Wire.varint n ++ rest⟩ = (.error error, after) := by
  obtain ⟨after, hrun⟩ := run_varintGroups_overflow (Wire.ten_groups.symm ▸ h) pos pos rest
  exact ⟨.varintOverflow pos, after, run_varint_of_error hrun⟩

theorem returns_svarint (n : Int64) : Returns True svarint (Wire.svarint n) n := by
  have h := (returns_varint_toNat (Wire.zigzag n)).map Wire.unzigzag
  rwa [Wire.unzigzag_zigzag] at h

theorem returns_boolean (flag : Bool) : Returns True boolean (Wire.boolean flag) flag := by
  have h := (returns_varint (n := flag.toNat) (by cases flag <;> decide)).map (· != 0)
  cases flag <;> exact h

-- ---------------------------------------------------------------------------
-- Words
-- ---------------------------------------------------------------------------

theorem returns_word (n : UInt64) :
    Returns True (do return UInt64.ofNat (Wire.ofLittleEndian (← exact 8)))
      (Wire.littleEndian 8 n.toNat) n := by
  have hlen := Wire.length_littleEndian 8 n.toNat
  have h := (returns_exact (Wire.littleEndian 8 n.toNat)).map
    fun bytes => UInt64.ofNat (Wire.ofLittleEndian bytes)
  rw [hlen, Wire.ofLittleEndian_littleEndian, Nat.mod_eq_of_lt n.toNat_lt,
    UInt64.ofNat_toNat] at h
  exact h

theorem returns_double (x : Binary64) : Returns True double (Wire.double x) x :=
  (returns_word x.bits).map Binary64.mk

theorem returns_fixed64 (n : Int64) : Returns True fixed64 (Wire.fixed64 n) n :=
  (returns_word n.toUInt64).map UInt64.toInt64

-- ---------------------------------------------------------------------------
-- Lengths and counts
-- ---------------------------------------------------------------------------

theorem returns_lengthPrefixed (bytes : Bytes) :
    Returns (bytes.length < UInt64.size) lengthPrefixed (Wire.lengthPrefixed bytes) bytes := by
  by_cases h : bytes.length < UInt64.size
  · have hlen : (UInt64.ofNat bytes.length).toNat = bytes.length := UInt64.toNat_ofNat_of_lt' h
    have hnext : Returns True (exact (UInt64.ofNat bytes.length).toNat) bytes bytes := by
      rw [hlen]
      exact returns_exact bytes
    exact ((returns_varint h).bind hnext).mono fun _ => ⟨trivial, trivial⟩
  · refine Returns.of_error h fun pos rest => ?_
    obtain ⟨error, after, herr⟩ := varint_overflow (Nat.le_of_not_lt h) pos (bytes ++ rest)
    refine ⟨error, after, ?_⟩
    rw [Wire.lengthPrefixed, List.append_assoc]
    exact run_bind_error herr

theorem returns_text (text : String) :
    Returns ((Wire.utf8 text).length < UInt64.size) Reader.text
      (Wire.lengthPrefixed (Wire.utf8 text)) text := by
  refine (returns_lengthPrefixed (Wire.utf8 text)).bind_nil (Returns.position fun stop => ?_)
  rw [Wire.ofUtf8?_utf8]
  exact Returns.pure text

theorem returns_packedFlags (flags : List Bool) :
    Returns ((Wire.packBits flags).length < UInt64.size) (packedFlags flags.length)
      (Wire.lengthPrefixed (Wire.packBits flags)) flags := by
  refine Returns.position fun offset => (returns_lengthPrefixed (Wire.packBits flags)).bind_nil ?_
  rw [if_neg (by simp), Wire.unpackBits_packBits]
  exact Returns.pure flags

-- ---------------------------------------------------------------------------
-- Writing anew
-- ---------------------------------------------------------------------------

/-- Whatever bytes the reader accepts, writing its value anew takes no more of them. -/
def Covers (reader : Reader α) (write : α → Bytes) : Prop :=
  ∀ cursor value last, reader.run cursor = (.ok value, last) →
    cursor.pos + (write value).length ≤ last.pos

theorem Covers.map {reader : Reader α} {write : α → Bytes} {f : α → β} {write' : β → Bytes}
    (h : Covers reader write) (hf : ∀ a, (write' (f a)).length ≤ (write a).length) :
    Covers (do return f (← reader)) write' := by
  intro cursor value last hrun
  obtain ⟨a, after, hread, hpure⟩ := bind_ok.mp hrun
  obtain ⟨rfl, rfl⟩ := pure_ok.mp hpure
  have hle := h _ _ _ hread
  have := hf a
  omega

theorem covers_varint : Covers varint fun n => Wire.varint n.toNat := by
  intro cursor value last h
  obtain ⟨taken, hvarint, -, hpos⟩ := varint_ok h
  rw [hpos]
  refine Nat.add_le_add_left ?_ _
  rcases (Wire.isVarint_iff.mp hvarint).2.shortest with rfl | hshorter
  · exact Nat.le_refl _
  · exact Nat.le_of_lt hshorter

theorem covers_svarint : Covers svarint Wire.svarint :=
  covers_varint.map fun n => Nat.le_of_eq (by rw [Wire.svarint, Wire.zigzag_unzigzag])

theorem covers_boolean : Covers boolean Wire.boolean :=
  covers_varint.map fun n => by
    rw [Wire.length_boolean]
    exact Wire.length_varint_pos n.toNat

theorem covers_exact {write : Bytes → Bytes} (h : ∀ bytes, (write bytes).length ≤ count) :
    Covers (exact count) write := by
  intro cursor value last hrun
  obtain ⟨-, -, rfl⟩ := exact_ok.mp hrun
  exact Nat.add_le_add_left (h value) _

theorem covers_word : Covers (exact 8) fun _ => Wire.littleEndian 8 0 :=
  covers_exact (by simp)

theorem covers_double : Covers double Wire.double :=
  covers_word.map (by simp [Wire.double])

theorem covers_fixed64 : Covers fixed64 Wire.fixed64 :=
  covers_word.map (by simp [Wire.fixed64])

theorem covers_lengthPrefixed : Covers lengthPrefixed Wire.lengthPrefixed := by
  intro cursor bytes last h
  obtain ⟨length, after, hlength, h⟩ := bind_ok.mp h
  obtain ⟨hle, rfl, rfl⟩ := exact_ok.mp h
  have hvarint := covers_varint _ _ _ hlength
  rw [Wire.lengthPrefixed, List.length_append, List.length_take_of_le hle]
  simp only at hvarint ⊢
  omega

theorem covers_text : Covers text fun text => Wire.lengthPrefixed (Wire.utf8 text) := by
  intro cursor content last h
  obtain ⟨bytes, after, hbytes, h⟩ := bind_ok.mp h
  obtain ⟨stop, after', hstop, h⟩ := bind_ok.mp h
  obtain ⟨-, rfl⟩ := Prod.mk.inj (run_position after ▸ hstop)
  split at h
  · rename_i found hfound
    obtain ⟨rfl, rfl⟩ := pure_ok.mp h
    have hcontent : Wire.utf8 found = bytes := Wire.utf8_of_ofUtf8? hfound
    simp only [hcontent]
    exact covers_lengthPrefixed _ _ _ hbytes
  · exact absurd h throw_ok

theorem packedFlags_ok (h : (packedFlags count).run cursor = (.ok flags, last)) :
    flags.length = count ∧
      cursor.pos + (Wire.lengthPrefixed (Wire.packBits flags)).length ≤ last.pos := by
  obtain ⟨offset, after, hoffset, h⟩ := bind_ok.mp h
  obtain ⟨-, rfl⟩ := Prod.mk.inj (run_position cursor ▸ hoffset)
  obtain ⟨packed, after', hpacked, h⟩ := bind_ok.mp h
  split at h
  · exact absurd h throw_ok
  · rename_i hsize
    obtain ⟨rfl, rfl⟩ := pure_ok.mp h
    have hle := covers_lengthPrefixed _ _ _ hpacked
    have hmono : (Wire.varint (Wire.packedSize count)).length ≤ (Wire.varint packed.length).length :=
      Wire.length_varint_mono (by omega)
    simp only [Wire.lengthPrefixed, List.length_append, Wire.length_packBits,
      Wire.length_unpackBits, true_and] at hle ⊢
    omega

end Reader

end Positional
