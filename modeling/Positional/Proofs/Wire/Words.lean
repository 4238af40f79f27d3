import Positional.Proofs.Wire.Varints

/-!
# The wire in machine words

The wire's integers are defined by arithmetic on numbers. In words of 64 bits the same is done by
shifting and masking: a zig-zag code doubles and turns bits, and the groups of a varint are cut off
below and set above what was read before.
-/

namespace Positional

namespace Wire

-- ---------------------------------------------------------------------------
-- Zig-zag
-- ---------------------------------------------------------------------------

theorem ushiftRight_sign {x : BitVec 64} (h : x.msb = false) : x >>> 63 = 0#64 := by
  have hlt : x.toNat < 9223372036854775808 := by
    rw [BitVec.msb_eq_decide] at h
    simpa using h
  apply BitVec.eq_of_toNat_eq
  rw [BitVec.toNat_ushiftRight, Nat.shiftRight_eq_div_pow]
  exact Nat.div_eq_of_lt hlt

/-- What a shift leaves of the sign alone is no bit or all of them. -/
theorem sshiftRight_sign (x : BitVec 64) :
    x.sshiftRight 63 = if x.msb then BitVec.allOnes 64 else 0#64 := by
  cases h : x.msb with
  | false =>
    rw [BitVec.sshiftRight_eq_of_msb_false h, ushiftRight_sign h]
    rfl
  | true =>
    have hnot : (~~~x).msb = false := by simp [h]
    rw [BitVec.sshiftRight_eq_of_msb_true h, ushiftRight_sign hnot]
    rfl

/-- The code of an integer is its double, with all bits turned if the integer is negative. -/
theorem zigzag_eq_words (n : Int64) : zigzag n = ((n <<< 1) ^^^ (n >>> 63)).toUInt64 := by
  apply UInt64.toNat_inj.mp
  have hwords : ((n <<< 1) ^^^ (n >>> 63)).toUInt64.toNat =
      ((n.toBitVec <<< 1) ^^^ n.toBitVec.sshiftRight 63).toNat := rfl
  have hint : n.toInt = if n.toBitVec.msb then (n.toBitVec.toNat : Int) - 18446744073709551616
      else n.toBitVec.toNat := BitVec.toInt_eq_msb_cond n.toBitVec
  have hbound := n.toBitVec.isLt
  rw [hwords, sshiftRight_sign, zigzag]
  cases hm : n.toBitVec.msb with
  | false =>
    rw [hm, if_neg Bool.false_ne_true] at hint
    rw [if_neg Bool.false_ne_true, BitVec.xor_zero, BitVec.toNat_shiftLeft, Nat.shiftLeft_eq, hint]
    change (UInt64.ofNat (2 * n.toBitVec.toNat)).toNat = _
    rw [UInt64.toNat_ofNat', Nat.mul_comm]
  | true =>
    rw [hm, if_pos rfl] at hint
    rw [if_pos rfl, BitVec.xor_allOnes, BitVec.toNat_not, BitVec.toNat_shiftLeft, Nat.shiftLeft_eq]
    obtain ⟨k, hk⟩ : ∃ k : Nat, n.toBitVec.toNat + (k + 1) = 18446744073709551616 :=
      ⟨18446744073709551616 - n.toBitVec.toNat - 1, by omega⟩
    have hhalf : k < 9223372036854775808 := by
      rw [BitVec.msb_eq_decide] at hm
      have := of_decide_eq_true hm
      omega
    have hneg : n.toInt = Int.negSucc k := by
      rw [hint, Int.negSucc_eq]
      omega
    rw [hneg]
    change (UInt64.ofNat (2 * k + 1)).toNat = _
    rw [UInt64.toNat_ofNat_of_lt' (by simp [UInt64.size]; omega)]
    omega

/-- The integer of a code is the half of it, with all bits turned if the code is odd. -/
theorem unzigzag_eq_words (n : UInt64) :
    unzigzag n = (n >>> 1).toInt64 ^^^ -(n &&& 1).toInt64 := by
  have hhalf : (n >>> 1).toInt64 = Int64.ofInt (n.toNat / 2 : Nat) := by
    have hshift : n >>> 1 = UInt64.ofNat (n.toNat / 2) := by
      apply UInt64.toNat_inj.mp
      rw [UInt64.toNat_ofNat_of_lt' (Nat.lt_of_le_of_lt (Nat.div_le_self ..) n.toNat_lt),
        UInt64.toNat_shiftRight]
      exact Nat.shiftRight_eq_div_pow _ 1
    rw [hshift, UInt64.toInt64_ofNat', Int64.ofInt_eq_ofNat]
  have hlow : (n &&& 1).toNat = n.toNat % 2 := by
    rw [UInt64.toNat_and]
    exact Nat.and_one_is_mod _
  rw [unzigzag, hhalf]
  rcases Nat.mod_two_eq_zero_or_one n.toNat with heven | hodd
  · have hzero : n &&& 1 = 0 := UInt64.toNat_inj.mp (hlow.trans heven)
    simp [heven, hzero]
  · have hone : n &&& 1 = 1 := UInt64.toNat_inj.mp (hlow.trans hodd)
    have hturned : Int64.ofInt (n.toNat / 2 : Nat) ^^^ -(UInt64.toInt64 1) =
        Int64.ofInt (-(n.toNat / 2 : Nat) - 1) := by
      rw [show -(UInt64.toInt64 1) = -1 from rfl, Int64.xor_neg_one, Int64.not_eq_neg_sub,
        Int64.ofInt_sub, Int64.ofInt_neg]
      rfl
    rw [hone, hturned]
    simp [hodd]

-- ---------------------------------------------------------------------------
-- Groups
-- ---------------------------------------------------------------------------

theorem toNat_lowBits (byte : UInt8) : (byte &&& 0x7f).toNat = byte.toNat % 128 := by
  rw [UInt8.toNat_and]
  exact Nat.and_two_pow_sub_one_eq_mod byte.toNat 7

theorem topBit_eq_zero (byte : UInt8) : (byte &&& 0x80 == 0) = decide (byte.toNat < 128) := by
  have htop : ∀ n : Fin 256, (n.val &&& 128 == 0) = decide (n.val < 128) := by decide +kernel
  rw [← htop ⟨byte.toNat, byte.toNat_lt⟩, Bool.eq_iff_iff, beq_iff_eq, beq_iff_eq, ← UInt8.toNat_inj,
    UInt8.toNat_and]
  rfl

theorem toNat_setGroup {value group : UInt64} {index : Nat} (hi : index < 10)
    (hv : value.toNat < Nat.pow 128 index)
    (hfit : value.toNat + Nat.pow 128 index * group.toNat < UInt64.size) :
    (value ||| group <<< UInt64.ofNat (7 * index)).toNat =
      value.toNat + Nat.pow 128 index * group.toNat := by
  have hpow : Nat.pow 128 index = Nat.pow 2 (7 * index) := (Nat.pow_mul 2 7 index).symm
  have hshift : (UInt64.ofNat (7 * index)).toNat = 7 * index :=
    UInt64.toNat_ofNat_of_lt' (by simp [UInt64.size]; omega)
  rw [hpow] at hv hfit ⊢
  have hplace : (group <<< UInt64.ofNat (7 * index)).toNat = Nat.pow 2 (7 * index) * group.toNat := by
    rw [UInt64.toNat_shiftLeft, hshift, Nat.mod_eq_of_lt (show 7 * index < 64 by omega),
      Nat.shiftLeft_eq, Nat.mul_comm]
    exact Nat.mod_eq_of_lt (Nat.lt_of_le_of_lt (Nat.le_add_left ..) hfit)
  rw [UInt64.toNat_or, hplace, Nat.or_comm, Nat.add_comm]
  exact (Nat.two_pow_add_eq_or_of_lt hv group.toNat).symm

theorem setGroup_lt {value group bound index : Nat} (hv : value < Nat.pow 128 index)
    (hgroup : group < bound) : value + Nat.pow 128 index * group < Nat.pow 128 index * bound := by
  have hstep : Nat.pow 128 index * (group + 1) ≤ Nat.pow 128 index * bound :=
    Nat.mul_le_mul_left _ hgroup
  rw [Nat.mul_succ] at hstep
  omega

theorem setGroup_lt_size {value group index left : Nat} (hindex : index + left = 9)
    (hv : value < Nat.pow 128 index) (hgroup : group < 128) (hlast : ¬ (left = 0 ∧ 1 < group)) :
    value + Nat.pow 128 index * group < UInt64.size := by
  have hsize : Nat.pow 128 9 * 2 = UInt64.size := by decide
  by_cases hleft : left = 0
  · obtain rfl : index = 9 := by omega
    exact hsize ▸ setGroup_lt hv (by omega)
  · have hhigher : Nat.pow 128 (index + 1) ≤ Nat.pow 128 9 :=
      Nat.pow_le_pow_right (by decide) (by omega)
    have hlt : value + Nat.pow 128 index * group < Nat.pow 128 (index + 1) := setGroup_lt hv hgroup
    omega

end Wire

end Positional
