/-!
# Integers of 64 bits

The exact integers that fit into a signed or an unsigned 64-bit word.
-/

namespace Positional

def int64? (n : Int) : Option Int64 :=
  if Int64.minValue.toInt ≤ n && n ≤ Int64.maxValue.toInt then some (Int64.ofInt n) else none

def uint64? (n : Int) : Option UInt64 :=
  if 0 ≤ n && n < UInt64.size then some (UInt64.ofNat n.toNat) else none

/-- The 64-bit signed integer nearest to `n`. -/
def saturate (n : Int) : Int64 :=
  if n < Int64.minValue.toInt then Int64.minValue
  else if Int64.maxValue.toInt < n then Int64.maxValue
  else Int64.ofInt n

theorem int64?_eq_some : int64? m = some n ↔ n.toInt = m := by
  have low := n.le_toInt
  have high := n.toInt_lt
  have min : Int64.minValue.toInt = -9223372036854775808 := rfl
  have max : Int64.maxValue.toInt = 9223372036854775807 := rfl
  simp only [int64?, min, max, Bool.and_eq_true, decide_eq_true_eq]
  constructor
  · intro h
    split at h
    · cases h
      exact Int64.toInt_ofInt_of_le (by omega) (by omega)
    · cases h
  · rintro rfl
    rw [if_pos (by omega), Int64.ofInt_toInt]

theorem uint64?_eq_some : uint64? m = some n ↔ (n.toNat : Int) = m := by
  have high := n.toNat_lt
  have size : UInt64.size = 18446744073709551616 := rfl
  simp only [uint64?, Bool.and_eq_true, decide_eq_true_eq]
  constructor
  · intro h
    split at h
    · cases h
      rw [UInt64.toNat_ofNat_of_lt' (by omega)]
      omega
    · cases h
  · rintro rfl
    rw [if_pos (by omega), Int.toNat_natCast, UInt64.ofNat_toNat]

theorem saturate_cases (n : Int) :
    n < Int64.minValue.toInt ∧ saturate n = Int64.minValue ∨
      Int64.maxValue.toInt < n ∧ saturate n = Int64.maxValue ∨ (saturate n).toInt = n := by
  have min : Int64.minValue.toInt = -9223372036854775808 := rfl
  have max : Int64.maxValue.toInt = 9223372036854775807 := rfl
  rw [saturate]
  split
  · exact .inl ⟨‹_›, rfl⟩
  · split
    · exact .inr (.inl ⟨‹_›, rfl⟩)
    · exact .inr (.inr (Int64.toInt_ofInt_of_le (by omega) (by omega)))

theorem saturate_of_int64? (h : int64? n = some k) : saturate n = k := by
  have hk := int64?_eq_some.mp h
  have low := k.le_toInt
  have high := k.toInt_lt
  have min : Int64.minValue.toInt = -9223372036854775808 := rfl
  have max : Int64.maxValue.toInt = 9223372036854775807 := rfl
  rcases saturate_cases n with ⟨hlow, -⟩ | ⟨hhigh, -⟩ | hn
  · omega
  · omega
  · exact Int64.toInt_inj.mp (hn.trans hk.symm)

end Positional
