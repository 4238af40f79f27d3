import Positional.Proofs.Wire.Returns

/-!
# Varints

A varint carries a number in groups of seven bits, the lowest first, and each byte but the last
announces the next by its top bit (`Groups`). A reader takes any such bytes that are within its
allowance, over-long ones too; the writer's are the only ones that are as short as can be. What a
reader refuses either ends before a group that is announced or goes beyond the allowance.
-/

namespace Positional

namespace Wire

theorem varint_of_lt (h : n < 128) : varint n = [UInt8.ofNat n] := by
  rw [varint, if_pos h]

theorem varint_of_le (h : 128 ≤ n) :
    varint n = UInt8.ofNat (128 + n % 128) :: varint (n / 128) := by
  rw [varint, if_neg (by omega)]

theorem toNat_ofNat_byte (h : n < 256) : (UInt8.ofNat n).toNat = n :=
  UInt8.toNat_ofNat_of_lt' h

theorem length_varint_pos (n : Nat) : 0 < (varint n).length := by
  by_cases h : n < 128
  · simp [varint_of_lt h]
  · simp [varint_of_le (Nat.le_of_not_lt h)]

theorem length_varint_mono (h : m ≤ n) : (varint m).length ≤ (varint n).length := by
  induction m using Nat.strongRecOn generalizing n with
  | ind m ih =>
    by_cases hm : m < 128
    · rw [varint_of_lt hm]
      by_cases hn : n < 128
      · rw [varint_of_lt hn]; simp
      · rw [varint_of_le (by omega)]; simp
    · rw [varint_of_le (n := m) (by omega), varint_of_le (n := n) (by omega), List.length_cons,
        List.length_cons]
      have hrest := ih (m / 128) (by omega) (n := n / 128) (by omega)
      omega

theorem length_varint_le {left : Nat} (h : n < 2 * Nat.pow 128 left) :
    (varint n).length ≤ left + 1 := by
  induction left generalizing n with
  | zero =>
    have hn : n < 2 := by simpa using h
    simp [varint_of_lt (n := n) (by omega)]
  | succ left ih =>
    have hpow : Nat.pow 128 (left + 1) = Nat.pow 128 left * 128 := rfl
    by_cases hlt : n < 128
    · rw [varint_of_lt hlt, List.length_singleton]
      omega
    · rw [varint_of_le (by omega), List.length_cons]
      have hrest := ih (n := n / 128) (by omega)
      omega

-- ---------------------------------------------------------------------------
-- Groups
-- ---------------------------------------------------------------------------

/-- The bytes carry the number in groups of seven bits. -/
inductive Groups : Bytes → Nat → Prop
  | last (h : byte.toNat < 128) : Groups [byte] byte.toNat
  | more {byte : UInt8} (h : 128 ≤ byte.toNat) (hr : Groups rest n) :
      Groups (byte :: rest) (byte.toNat % 128 + 128 * n)

theorem Groups.length_pos (h : Groups bytes n) : 0 < bytes.length := by
  cases h <;> exact Nat.succ_pos _

theorem groups_varint (n : Nat) : Groups (varint n) n := by
  induction n using Nat.strongRecOn with
  | ind n ih =>
    by_cases hlt : n < 128
    · have hbyte := toNat_ofNat_byte (n := n) (by omega)
      have hlast : Groups [UInt8.ofNat n] (UInt8.ofNat n).toNat := .last (by omega)
      rwa [hbyte, ← varint_of_lt hlt] at hlast
    · have hbyte := toNat_ofNat_byte (n := 128 + n % 128) (by omega)
      have hmore : Groups (UInt8.ofNat (128 + n % 128) :: varint (n / 128)) _ :=
        .more (by omega) (ih (n / 128) (by omega))
      have hvalue : (128 + n % 128) % 128 + 128 * (n / 128) = n := by omega
      rwa [hbyte, hvalue, ← varint_of_le (by omega)] at hmore

/-- The shortest bytes that carry a number are its varint. -/
theorem Groups.shortest (h : Groups bytes n) :
    bytes = varint n ∨ (varint n).length < bytes.length := by
  induction h with
  | last h => exact .inl (by rw [varint_of_lt h, UInt8.ofNat_toNat])
  | @more rest m byte h hr ih =>
    have hbound := byte.toNat_lt
    by_cases hlt : byte.toNat % 128 + 128 * m < 128
    · -- the groups above the lowest are all zero: one byte would have done
      have hpos := hr.length_pos
      rw [varint_of_lt hlt, List.length_singleton, List.length_cons]
      exact .inr (by omega)
    · have hhigher : (byte.toNat % 128 + 128 * m) / 128 = m := by omega
      have hlowest : 128 + (byte.toNat % 128 + 128 * m) % 128 = byte.toNat := by omega
      rw [varint_of_le (by omega), hhigher, hlowest, UInt8.ofNat_toNat]
      rcases ih with rfl | hshorter
      · exact .inl rfl
      · exact .inr (Nat.succ_lt_succ hshorter)

def sumOf (multiples : List Nat) : Nat :=
  multiples.foldr (· + ·) 0

theorem sumOf_mapIdx_mul (factor : Nat) (f : Nat → α → Nat) (items : List α) :
    sumOf (items.mapIdx fun i item => factor * f i item) = factor * sumOf (items.mapIdx f) := by
  induction items generalizing f with
  | nil => rfl
  | cons item rest ih =>
    have hrest := ih fun i => f (i + 1)
    simp only [sumOf, List.mapIdx_cons, List.foldr_cons, Nat.mul_add] at hrest ⊢
    rw [hrest]

/-- All but the last byte have the top bit, and the low bits are the digits to base 128. -/
theorem groups_iff : Groups bytes n ↔
    (∃ front last, bytes = front ++ [last] ∧ (∀ byte ∈ front, 128 ≤ UInt8.toNat byte) ∧
      last.toNat < 128) ∧
    sumOf (bytes.mapIdx fun i byte => byte.toNat % 128 * Nat.pow 128 i) = n := by
  have hsum (byte : UInt8) (rest : Bytes) :
      sumOf ((byte :: rest).mapIdx fun i byte => byte.toNat % 128 * Nat.pow 128 i) =
        byte.toNat % 128 +
          128 * sumOf (rest.mapIdx fun i byte => byte.toNat % 128 * Nat.pow 128 i) := by
    have hstep (byte : UInt8) (i : Nat) : byte.toNat % 128 * Nat.pow 128 (i + 1) =
        128 * (byte.toNat % 128 * Nat.pow 128 i) := by
      rw [show Nat.pow 128 (i + 1) = 128 * Nat.pow 128 i from Nat.mul_comm .., Nat.mul_left_comm]
    rw [← sumOf_mapIdx_mul]
    simp only [sumOf, List.mapIdx_cons, List.foldr_cons, hstep]
    simp
  constructor
  · intro h
    induction h with
    | @last byte h =>
      refine ⟨⟨[], byte, rfl, List.forall_mem_nil _, h⟩, ?_⟩
      rw [hsum]
      exact Nat.mod_eq_of_lt h
    | @more rest m byte h hr ih =>
      obtain ⟨⟨front, last, rfl, hfront, hlast⟩, rfl⟩ := ih
      exact ⟨⟨byte :: front, last, rfl, List.forall_mem_cons.mpr ⟨h, hfront⟩, hlast⟩, hsum ..⟩
  · rintro ⟨⟨front, last, rfl, hfront, hlast⟩, rfl⟩
    induction front with
    | nil =>
      rw [List.nil_append, hsum]
      change Groups [last] (last.toNat % 128)
      rw [Nat.mod_eq_of_lt hlast]
      exact .last hlast
    | cons byte front ih =>
      obtain ⟨hbyte, hfront⟩ := List.forall_mem_cons.mp hfront
      rw [List.cons_append, hsum]
      exact .more hbyte (ih hfront)

/-- The bytes are a varint of the number: at most ten, each but the last with the top bit, and their
low bits are its digits to base 128. -/
structure IsVarint (bytes : Bytes) (n : UInt64) : Prop where
  length_le : bytes.length ≤ 10
  ends : ∃ front last, bytes = front ++ [last] ∧ (∀ byte ∈ front, 128 ≤ UInt8.toNat byte) ∧
    last.toNat < 128
  sum : sumOf (bytes.mapIdx fun i byte => byte.toNat % 128 * Nat.pow 128 i) = n.toNat

theorem isVarint_iff : IsVarint bytes n ↔ bytes.length ≤ 10 ∧ Groups bytes n.toNat := by
  rw [groups_iff]
  exact ⟨fun ⟨hlen, hends, hsum⟩ => ⟨hlen, hends, hsum⟩,
    fun ⟨hlen, hends, hsum⟩ => ⟨hlen, hends, hsum⟩⟩

theorem ten_groups : 2 * Nat.pow 128 9 = UInt64.size := by decide

theorem length_varint_le_ten (n : UInt64) : (varint n.toNat).length ≤ 10 :=
  length_varint_le (ten_groups ▸ n.toNat_lt)

theorem isVarint_varint (n : UInt64) : IsVarint (varint n.toNat) n :=
  isVarint_iff.mpr ⟨length_varint_le_ten n, groups_varint _⟩

theorem isVarint_byte {byte : UInt8} (h : byte.toNat < 128) : IsVarint [byte] byte.toUInt64 := by
  rw [isVarint_iff, UInt8.toNat_toUInt64]
  exact ⟨Nat.le_add_left .., .last h⟩

end Wire

namespace Reader

-- ---------------------------------------------------------------------------
-- Reading groups
-- ---------------------------------------------------------------------------

/-- One byte of a varint: it overflows, it is the last one, or the others are the higher groups. -/
theorem run_varintGroups_cons (start left pos : Nat) (first : UInt8) (rest : Bytes) :
    (varintGroups start (left + 1)).run ⟨pos, first :: rest⟩ =
      if left = 0 ∧ 1 < first.toNat % 128 then (.error (.varintOverflow start), ⟨pos + 1, rest⟩)
      else if first.toNat < 128 then (.ok first.toNat, ⟨pos + 1, rest⟩)
      else match (varintGroups start left).run ⟨pos + 1, rest⟩ with
        | (.ok higher, last) => (.ok (first.toNat % 128 + 128 * higher), last)
        | (.error error, last) => (.error error, last) := by
  have hbyte : byte.run ⟨pos, first :: rest⟩ = (.ok first, ⟨pos + 1, rest⟩) :=
    byte_ok.mpr ⟨rfl, rfl⟩
  rw [varintGroups, run_bind_ok hbyte]
  simp only [Bool.and_eq_true, beq_iff_eq, decide_eq_true_eq]
  split
  · rfl
  · split
    · rename_i hlt
      rw [Nat.mod_eq_of_lt hlt]
      rfl
    · rcases h : (varintGroups start left).run ⟨pos + 1, rest⟩ with ⟨error | higher, last⟩
      · exact run_bind_error h
      · exact run_bind_ok h

theorem run_varintGroups {left : Nat} (h : Wire.Groups bytes n) (hlen : bytes.length ≤ left + 1)
    (hn : n < 2 * Nat.pow 128 left) (start pos : Nat) (rest : Bytes) :
    (varintGroups start (left + 1)).run ⟨pos, bytes ++ rest⟩ =
      (.ok n, ⟨pos + bytes.length, rest⟩) := by
  induction h generalizing left pos with
  | @last byte h =>
    have hfit : ¬ (left = 0 ∧ 1 < byte.toNat % 128) := by
      rintro ⟨rfl, hbits⟩
      simp only [Nat.pow_eq, Nat.pow_zero] at hn
      omega
    rw [List.singleton_append, run_varintGroups_cons, if_neg hfit, if_pos h]
    rfl
  | @more tail m byte h hr ih =>
    have hpos := hr.length_pos
    rw [List.length_cons] at hlen
    obtain ⟨below, rfl⟩ : ∃ below, left = below + 1 := ⟨left - 1, by omega⟩
    have hpow : Nat.pow 128 (below + 1) = Nat.pow 128 below * 128 := rfl
    have hrest := ih (show tail.length ≤ below + 1 by omega) (by omega) (pos + 1)
    have hlast (k : Nat) : pos + 1 + k = pos + (k + 1) := by omega
    rw [List.cons_append, run_varintGroups_cons, if_neg (by omega), if_neg (by omega), hrest]
    simp only [hlast, List.length_cons]

theorem run_varintGroups_short (h : ∀ byte ∈ bytes, 128 ≤ UInt8.toNat byte)
    (hlen : bytes.length ≤ left) (start pos : Nat) :
    (varintGroups start (left + 1)).run ⟨pos, bytes⟩ =
      (.error (.unexpectedEof (pos + bytes.length) 1 0), ⟨pos + bytes.length, []⟩) := by
  induction bytes generalizing left pos with
  | nil => rfl
  | cons byte rest ih =>
    rw [List.length_cons] at hlen
    obtain ⟨hbyte, hrest⟩ := List.forall_mem_cons.mp h
    obtain ⟨below, rfl⟩ : ∃ below, left = below + 1 := ⟨left - 1, by omega⟩
    have hlast : pos + 1 + rest.length = pos + (rest.length + 1) := by omega
    rw [run_varintGroups_cons, if_neg (by omega), if_neg (by omega), ih hrest (by omega), hlast,
      List.length_cons]

/-- Bytes begin with groups within the allowance, or they run out, or they overflow. -/
theorem varintGroups_cases (start left pos : Nat) (bytes : Bytes) :
    (∃ taken n rest, Wire.Groups taken n ∧ taken.length ≤ left + 1 ∧ n < 2 * Nat.pow 128 left ∧
      bytes = taken ++ rest) ∨
    (bytes.length ≤ left ∧ ∀ byte ∈ bytes, 128 ≤ UInt8.toNat byte) ∨
    ∃ last, (varintGroups start (left + 1)).run ⟨pos, bytes⟩
      = (.error (.varintOverflow start), last) := by
  have hpower : 0 < Nat.pow 128 left := Nat.pow_pos (by decide)
  induction left generalizing pos bytes with
  | zero =>
    cases bytes with
    | nil => exact .inr (.inl ⟨Nat.le_refl _, fun _ hmem => nomatch hmem⟩)
    | cons byte rest =>
      by_cases hfit : byte.toNat < 2
      · exact .inl ⟨[byte], _, rest, .last (by omega), Nat.le_refl _, hfit, rfl⟩
      · refine .inr (.inr ⟨⟨pos + 1, rest⟩, ?_⟩)
        rw [run_varintGroups_cons]
        -- either the group is too great or another byte is announced
        by_cases hbits : 1 < byte.toNat % 128
        · rw [if_pos ⟨rfl, hbits⟩]
        · rw [if_neg (by omega), if_neg (by omega)]
          rfl
  | succ left ih =>
    have hstep : Nat.pow 128 (left + 1) = Nat.pow 128 left * 128 := rfl
    cases bytes with
    | nil => exact .inr (.inl ⟨Nat.zero_le _, fun _ hmem => nomatch hmem⟩)
    | cons byte rest =>
      by_cases hlast : byte.toNat < 128
      · exact .inl ⟨[byte], _, rest, .last hlast, by simp, by omega, rfl⟩
      · have hmore : 128 ≤ byte.toNat := by omega
        obtain ⟨taken, n, others, hgroups, hlen, hn, rfl⟩ | ⟨hlen, hall⟩ | ⟨last, hrun⟩ :=
          ih (pos + 1) rest (by omega)
        · exact .inl ⟨byte :: taken, _, others, .more hmore hgroups, Nat.succ_le_succ hlen,
            by omega, rfl⟩
        · exact .inr (.inl ⟨Nat.succ_le_succ hlen, List.forall_mem_cons.mpr ⟨hmore, hall⟩⟩)
        · refine .inr (.inr ⟨last, ?_⟩)
          rw [run_varintGroups_cons, if_neg (by omega), if_neg hlast, hrun]

-- ---------------------------------------------------------------------------
-- Reading varints
-- ---------------------------------------------------------------------------

theorem run_varint_of_ok (h : (varintGroups cursor.pos 10).run cursor = (.ok n, last)) :
    varint.run cursor = (.ok (UInt64.ofNat n), last) := by
  rw [varint, run_bind_ok (run_position _), run_bind_ok h]
  rfl

theorem run_varint_of_error (h : (varintGroups cursor.pos 10).run cursor = (.error error, last)) :
    varint.run cursor = (.error error, last) := by
  rw [varint, run_bind_ok (run_position _), run_bind_error h]

theorem run_varint_isVarint (h : Wire.IsVarint bytes n) (pos : Nat) (rest : Bytes) :
    varint.run ⟨pos, bytes ++ rest⟩ = (.ok n, ⟨pos + bytes.length, rest⟩) := by
  obtain ⟨hlen, hgroups⟩ := Wire.isVarint_iff.mp h
  have hrun : varint.run ⟨pos, bytes ++ rest⟩ = _ :=
    run_varint_of_ok (run_varintGroups hgroups hlen (Wire.ten_groups ▸ n.toNat_lt) pos pos rest)
  rwa [UInt64.ofNat_toNat] at hrun

theorem run_varint_short (h : ∀ byte ∈ bytes, 128 ≤ UInt8.toNat byte) (hlen : bytes.length < 10)
    (pos : Nat) : varint.run ⟨pos, bytes⟩ =
      (.error (.unexpectedEof (pos + bytes.length) 1 0), ⟨pos + bytes.length, []⟩) :=
  run_varint_of_error (run_varintGroups_short h (Nat.le_of_lt_succ hlen) pos pos)

theorem varint_cases (pos : Nat) (bytes : Bytes) :
    (∃ taken n rest, Wire.IsVarint taken n ∧ bytes = taken ++ rest) ∨
    (bytes.length < 10 ∧ ∀ byte ∈ bytes, 128 ≤ UInt8.toNat byte) ∨
    ∃ last, varint.run ⟨pos, bytes⟩ = (.error (.varintOverflow pos), last) := by
  obtain ⟨taken, n, rest, hgroups, hlen, hn, rfl⟩ | ⟨hlen, hall⟩ | ⟨last, hrun⟩ :=
    varintGroups_cases pos 9 pos bytes
  · have hnat : (UInt64.ofNat n).toNat = n :=
      UInt64.toNat_ofNat_of_lt' (Wire.ten_groups ▸ hn)
    exact .inl ⟨taken, UInt64.ofNat n, rest,
      Wire.isVarint_iff.mpr ⟨hlen, hnat.symm ▸ hgroups⟩, rfl⟩
  · exact .inr (.inl ⟨Nat.lt_succ_of_le hlen, hall⟩)
  · exact .inr (.inr ⟨last, run_varint_of_error hrun⟩)

theorem varint_ok (h : varint.run cursor = (.ok n, last)) :
    ∃ taken, Wire.IsVarint taken n ∧ cursor.rest = taken ++ last.rest ∧
      last.pos = cursor.pos + taken.length := by
  obtain ⟨pos, bytes⟩ := cursor
  obtain ⟨taken, m, rest, hvarint, rfl⟩ | ⟨hlen, hall⟩ | ⟨after, hrun⟩ := varint_cases pos bytes
  · rw [run_varint_isVarint hvarint] at h
    cases h
    exact ⟨taken, hvarint, rfl, rfl⟩
  · rw [run_varint_short hall hlen] at h
    cases h
  · rw [hrun] at h
    cases h

theorem varint_eof : (∃ offset need left last,
      varint.run cursor = (.error (.unexpectedEof offset need left), last)) ↔
    cursor.rest.length < 10 ∧ ∀ byte ∈ cursor.rest, 128 ≤ byte.toNat := by
  obtain ⟨pos, bytes⟩ := cursor
  constructor
  · rintro ⟨offset, need, left, last, hrun⟩
    obtain ⟨taken, n, rest, hvarint, rfl⟩ | hshort | ⟨after, hover⟩ := varint_cases pos bytes
    · rw [run_varint_isVarint hvarint] at hrun
      cases hrun
    · exact hshort
    · rw [hover] at hrun
      cases hrun
  · exact fun ⟨hlen, hall⟩ => ⟨_, _, _, _, run_varint_short hall hlen pos⟩

theorem varint_fewest {n : UInt64} (h : varint.run cursor = (.ok n, last)) :
    cursor.rest = Wire.varint n.toNat ∨ (Wire.varint n.toNat).length < cursor.rest.length := by
  obtain ⟨taken, hvarint, hrest, -⟩ := varint_ok h
  have hlonger : taken.length ≤ cursor.rest.length := by
    rw [hrest, List.length_append]
    exact Nat.le_add_right ..
  rcases (Wire.isVarint_iff.mp hvarint).2.shortest with rfl | hshorter
  · -- either nothing follows the varint or the bytes are more
    cases hlast : last.rest with
    | nil => exact .inl (by rw [hrest, hlast, List.append_nil])
    | cons byte rest => exact .inr (by simp [hrest, hlast])
  · exact .inr (Nat.lt_of_lt_of_le hshorter hlonger)

/-- The reader accepts the varints of 64-bit numbers and nothing else, and takes the bytes of the one
that it accepts. It runs out where fewer than ten bytes are left and each announces another; whatever
else it refuses is an overflow at the start. The writer's bytes are at most ten, they are read back,
and no others that are read as the number are as few. -/
theorem varint_accepts :
    (∀ cursor n last, varint.run cursor = (.ok n, last) ↔
      ∃ taken, Wire.IsVarint taken n ∧ cursor.rest = taken ++ last.rest ∧
        last.pos = cursor.pos + taken.length) ∧
    (∀ cursor, (∃ offset need left last,
        varint.run cursor = (.error (.unexpectedEof offset need left), last)) ↔
      cursor.rest.length < 10 ∧ ∀ byte ∈ cursor.rest, 128 ≤ byte.toNat) ∧
    (∀ cursor, (∀ taken n rest, cursor.rest = taken ++ rest → ¬ Wire.IsVarint taken n) →
      ¬ (cursor.rest.length < 10 ∧ ∀ byte ∈ cursor.rest, 128 ≤ byte.toNat) →
      ∃ last, varint.run cursor = (.error (.varintOverflow cursor.pos), last)) ∧
    ∀ n : UInt64, (Wire.varint n.toNat).length ≤ 10 ∧
      (∀ pos rest, varint.run ⟨pos, Wire.varint n.toNat ++ rest⟩
        = (.ok n, ⟨pos + (Wire.varint n.toNat).length, rest⟩)) ∧
      ∀ cursor last, varint.run cursor = (.ok n, last) →
        cursor.rest = Wire.varint n.toNat ∨ (Wire.varint n.toNat).length < cursor.rest.length := by
  refine ⟨fun cursor n last => ⟨varint_ok, ?_⟩, fun cursor => varint_eof, ?_,
    fun n => ⟨Wire.length_varint_le_ten n, run_varint_isVarint (Wire.isVarint_varint n),
      fun cursor last => varint_fewest⟩⟩
  · rintro ⟨taken, hvarint, hrest, hpos⟩
    obtain ⟨pos, bytes⟩ := cursor
    obtain ⟨after, rest⟩ := last
    obtain rfl : bytes = taken ++ rest := hrest
    obtain rfl : after = pos + taken.length := hpos
    exact run_varint_isVarint hvarint pos rest
  · intro ⟨pos, bytes⟩ hnone hlong
    obtain ⟨taken, n, rest, hvarint, hbytes⟩ | hshort | hover := varint_cases pos bytes
    · exact absurd hvarint (hnone taken n rest hbytes)
    · exact absurd hshort hlong
    · exact hover

/-- Three hundred in two bytes and, over-long, in three; ten announcing bytes, and nine. -/
theorem varint_accepts_three_hundred :
    varint.run ⟨5, [0xac, 0x82, 0x00, 7]⟩ = (.ok 300, ⟨8, [7]⟩) ∧
      (∃ last, varint.run ⟨5, List.replicate 10 0xff⟩ = (.error (.varintOverflow 5), last)) ∧
      (∃ offset need left last, varint.run ⟨5, List.replicate 9 0xff⟩
        = (.error (.unexpectedEof offset need left), last)) ∧
      (Wire.varint 300 = [0xac, 0x02] ∧ (Wire.varint 300).length < 4) := by
  obtain ⟨hok, heof, hover, hwritten⟩ := varint_accepts
  have hlong : varint.run ⟨5, [0xac, 0x82, 0x00, 7]⟩ = (.ok 300, ⟨8, [7]⟩) :=
    (hok _ _ _).mpr ⟨[0xac, 0x82, 0x00],
      ⟨by decide, ⟨[0xac, 0x82], 0x00, rfl, by decide +kernel, by decide⟩, by decide⟩, rfl, rfl⟩
  have hvarint : Wire.varint 300 = [0xac, 0x02] := by
    rw [Wire.varint_of_le (by decide), Wire.varint_of_lt (by decide)]
    rfl
  refine ⟨hlong, hover _ ?_ (by decide), (heof _).mpr (by decide +kernel), hvarint, ?_⟩
  · -- the last byte of a varint is below 128, and no byte here is
    rintro taken n rest hbytes ⟨-, ⟨front, last, rfl, -, hlast⟩, -⟩
    have hmem : last ∈ List.replicate 10 (0xff : UInt8) := by
      rw [show List.replicate 10 (0xff : UInt8) = front ++ [last] ++ rest from hbytes]
      simp
    rw [List.eq_of_mem_replicate hmem] at hlast
    exact absurd hlast (by decide)
  · refine ((hwritten 300).2.2 _ _ hlong).resolve_left ?_
    rw [show UInt64.toNat 300 = 300 from rfl, hvarint]
    decide

end Reader

end Positional
