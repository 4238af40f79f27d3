import Mathlib.Algebra.Order.Field.Rat
import Mathlib.Algebra.Order.Field.Power
import Positional.Integer
import Positional.Proofs.Binary64.Nearest

/-!
# The number that a float is

A pattern that is no NaN stands for a rational number or an infinity, which its three bit fields
spell out. Comparing and converting in whole units, as this library does, is exact: floats are equal
just when they stand for one number, and one converts to an integer just when it stands for it.
-/

namespace Positional

/-- What numeric values denote: a rational number, or the infinity above or below all of them. -/
inductive Number where
  | rational (q : ℚ)
  | infinite (negative : Bool)
deriving DecidableEq

namespace Binary64

variable {x y : Binary64}

def exponent (x : Binary64) : Nat := x.bits.toNat / 2 ^ 52 % 2 ^ 11

def fraction (x : Binary64) : Nat := x.bits.toNat % 2 ^ 52

/-- The digits before the point: the fraction, behind a leading one unless the exponent is zero. -/
def significand (x : Binary64) : Nat :=
  if x.exponent = 0 then x.fraction else 2 ^ 52 + x.fraction

def sign (x : Binary64) : ℚ := if x.bits.toNat / 2 ^ 63 = 1 then -1 else 1

def number? (x : Binary64) : Option Number :=
  if x.exponent = 2047 then
    if x.fraction = 0 then some (.infinite (x.bits.toNat / 2 ^ 63 == 1)) else none
  else some (.rational (x.sign * (x.significand * 2 ^ ((max x.exponent 1 : ℕ) - 1075 : ℤ))))

-- ---------------------------------------------------------------------------
-- Fields and units
-- ---------------------------------------------------------------------------

theorem magnitude_eq (x : Binary64) : x.magnitude = x.exponent * binade + x.fraction := by
  have hbit : signBit = 9223372036854775808 := rfl
  have hbinade : binade = 4503599627370496 := rfl
  rw [magnitude, exponent, fraction, hbit, hbinade]
  omega

theorem fraction_lt (x : Binary64) : x.fraction < binade := Nat.mod_lt _ (by decide)

theorem exponent_lt (x : Binary64) : x.exponent < 2048 := Nat.mod_lt _ (by decide)

theorem isNegative_eq (x : Binary64) : x.isNegative = (x.bits.toNat / 2 ^ 63 == 1) := by
  have hlt := x.bits.toNat_lt
  have hbit : signBit = 9223372036854775808 := rfl
  rw [isNegative, hbit, Bool.beq_eq_decide_eq, decide_eq_decide]
  omega

theorem sign_mul (x : Binary64) (size : Nat) : x.sign * size = (signed x.isNegative size : Int) := by
  rw [sign, signed, isNegative_eq]
  by_cases h : x.bits.toNat / 2 ^ 63 = 1
  · rw [if_pos h, if_pos (beq_iff_eq.mpr h), Int.cast_neg, Int.cast_natCast, neg_one_mul]
  · rw [if_neg h, if_neg (mt beq_iff_eq.mp h), Int.cast_natCast, one_mul]

theorem unitsOf_magnitude (x : Binary64) :
    unitsOf x.magnitude = x.significand * Nat.pow 2 (max x.exponent 1 - 1) := by
  have hfraction := x.fraction_lt
  have hbinade : binade = 2 ^ 52 := rfl
  rw [magnitude_eq, significand]
  split
  · rename_i h
    rw [h, Nat.zero_mul, Nat.zero_add, unitsOf, if_pos hfraction]
    exact (Nat.mul_one _).symm
  · rename_i h
    obtain ⟨k, hk⟩ := Nat.exists_eq_succ_of_ne_zero h
    rw [hk, Nat.max_eq_left (by omega), Nat.succ_sub_one, ← hbinade,
      ← unitsOf_digits (by omega) (.inr (by omega)), Nat.succ_mul, Nat.add_assoc]

theorem cast_pow_two (k : Nat) : ((Nat.pow 2 k : ℕ) : ℚ) = 2 ^ (k : ℤ) := by
  rw [Nat.pow_eq, Nat.cast_pow, zpow_natCast, Nat.cast_ofNat]

theorem cast_one : ((one : ℕ) : ℚ) = 2 ^ (1074 : ℤ) := by
  unfold one
  apply cast_pow_two

theorem number?_of_finite (h : x.magnitude < infinity) :
    x.number? = some (.rational (x.units / one)) := by
  have hexponent : x.exponent ≠ 2047 := by
    intro he
    have hinf : infinity = 2047 * binade := rfl
    rw [magnitude_eq, he] at h
    omega
  obtain ⟨shift, hshift⟩ : ∃ shift, max x.exponent 1 = shift + 1 :=
    ⟨max x.exponent 1 - 1, by omega⟩
  have hpow : (2 : ℚ) ^ ((shift + 1 : ℕ) - 1075 : ℤ) = 2 ^ shift / one := by
    rw [cast_one, ← zpow_natCast, ← zpow_sub₀ (by decide), Nat.cast_succ]
    exact congrArg _ (by omega)
  rw [number?, if_neg hexponent, units, ← sign_mul, unitsOf_magnitude, hshift, hpow,
    Nat.add_sub_cancel, Nat.cast_mul, Nat.pow_eq, Nat.cast_pow, Nat.cast_ofNat, ← mul_div_assoc,
    ← mul_div_assoc]

theorem number?_of_infinite (h : x.magnitude = infinity) :
    x.number? = some (.infinite x.isNegative) := by
  have hinf : infinity = 2047 * binade := rfl
  have hlt := x.fraction_lt
  have hbinade : binade = 4503599627370496 := rfl
  rw [magnitude_eq, hinf, hbinade] at h
  rw [hbinade] at hlt
  rw [number?, if_pos (by omega), if_pos (by omega), isNegative_eq]

theorem number?_of_isNaN (h : x.isNaN = true) : x.number? = none := by
  have hinf : infinity = 2047 * binade := rfl
  have hfraction := x.fraction_lt
  have hexponent := x.exponent_lt
  have hbinade : binade = 4503599627370496 := rfl
  rw [isNaN, decide_eq_true_eq, magnitude_eq, hinf, hbinade] at h
  rw [hbinade] at hfraction
  rw [number?, if_pos (by omega), if_neg (by omega)]

theorem number?_cases (x : Binary64) :
    x.isNaN = true ∧ x.number? = none ∨
      x.magnitude = infinity ∧ x.number? = some (.infinite x.isNegative) ∨
      x.magnitude < infinity ∧ x.number? = some (.rational (x.units / one)) := by
  rcases Nat.lt_trichotomy x.magnitude infinity with h | h | h
  · exact .inr (.inr ⟨h, number?_of_finite h⟩)
  · exact .inr (.inl ⟨h, number?_of_infinite h⟩)
  · have hnan : x.isNaN = true := decide_eq_true h
    exact .inl ⟨hnan, number?_of_isNaN hnan⟩

-- ---------------------------------------------------------------------------
-- Equality and integers
-- ---------------------------------------------------------------------------

theorem isNaN_of_le (h : x.magnitude ≤ infinity) : x.isNaN = false :=
  decide_eq_false (Nat.not_lt.mpr h)

theorem cast_one_ne_zero : ((one : ℕ) : ℚ) ≠ 0 := Nat.cast_ne_zero.mpr (Nat.ne_of_gt one_pos)

theorem units_div_inj {m n : Int} : (m : ℚ) / one = n / one ↔ m = n := by
  rw [div_left_inj' cast_one_ne_zero, Int.cast_inj]

theorem units_ne_of_infinite (hx : x.magnitude = infinity) (hy : y.magnitude < infinity) :
    x.units ≠ y.units := by
  intro h
  have hsize := congrArg Int.natAbs h
  rw [units, units, natAbs_signed, natAbs_signed, hx] at hsize
  exact absurd (unitsOf_strictMono.injective hsize) (Nat.ne_of_gt hy)

theorem both_some_iff {a b : α} : (∃ n, some a = some n ∧ some b = some n) ↔ a = b :=
  ⟨fun ⟨_, h, h'⟩ => Option.some.inj (h.trans h'.symm), fun h => ⟨a, rfl, h ▸ rfl⟩⟩

/-- Floats are equal just when they stand for one number. -/
theorem equals_iff_number? :
    x.equals y = true ↔ ∃ n, x.number? = some n ∧ y.number? = some n := by
  rcases x.number?_cases with ⟨hx, hnx⟩ | ⟨hx, hnx⟩ | ⟨hx, hnx⟩
  · simp [equals, hx, hnx]
  all_goals rcases y.number?_cases with ⟨hy, hny⟩ | ⟨hy, hny⟩ | ⟨hy, hny⟩
  · simp [equals, hy, hny]
  · have hinf : 0 < unitsOf infinity := by decide +kernel
    have hunits : x.units = y.units ↔ x.isNegative = y.isNegative := by
      rw [units, units, hx, hy]
      generalize unitsOf infinity = size at hinf
      cases x.isNegative <;> cases y.isNegative <;> simp [signed] <;> omega
    rw [hnx, hny, both_some_iff, Number.infinite.injEq, ← hunits]
    simp [equals, isNaN_of_le hx.le, isNaN_of_le hy.le]
  · refine iff_of_false (by rw [equals, beq_eq_false_iff_ne.mpr (units_ne_of_infinite hx hy)]; simp) ?_
    rintro ⟨n, hn, hn'⟩
    cases hn.symm.trans hnx
    cases hn'.symm.trans hny
  · simp [equals, hy, hny]
  · refine iff_of_false
      (by rw [equals, beq_eq_false_iff_ne.mpr (units_ne_of_infinite hy hx).symm]; simp) ?_
    rintro ⟨n, hn, hn'⟩
    cases hn.symm.trans hnx
    cases hn'.symm.trans hny
  · rw [hnx, hny, both_some_iff, Number.rational.injEq, units_div_inj]
    simp [equals, isNaN_of_le hx.le, isNaN_of_le hy.le]

theorem equals_comm (x y : Binary64) : x.equals y = y.equals x := by
  rw [equals, equals, Bool.and_comm (!x.isNaN), BEq.comm]

theorem toInt?_eq_some_iff : x.toInt? = some n ↔ x.number? = some (.rational n) := by
  have hwhole : (n : ℚ) = (n * one : Int) / one := by
    rw [Int.cast_mul, Int.cast_natCast, mul_div_cancel_right₀ _ cast_one_ne_zero]
  constructor
  · intro h
    rw [number?_of_finite (toInt?_eq_some h).1, units_of_toInt? h, ← hwhole]
  · intro h
    rcases x.number?_cases with ⟨-, hnx⟩ | ⟨-, hnx⟩ | ⟨hx, hnx⟩
    · cases hnx.symm.trans h
    · cases hnx.symm.trans h
    · have hunits : x.units = n * one := by
        rw [hnx, Option.some.injEq, Number.rational.injEq, hwhole, units_div_inj] at h
        exact h
      have hsize : unitsOf x.magnitude = n.natAbs * one := by
        rw [← natAbs_signed x.isNegative (unitsOf x.magnitude), ← units, hunits, Int.natAbs_mul,
          Int.natAbs_natCast]
      have hsign : signed x.isNegative n.natAbs = n := by
        rw [units, hsize, signed_mul] at hunits
        exact Int.eq_of_mul_eq_mul_right (Int.natCast_ne_zero.mpr (Nat.ne_of_gt one_pos)) hunits
      have hfinite : x.isFinite = true := decide_eq_true hx
      simp only [toInt?, hfinite, hsize, Nat.mul_mod_left, BEq.rfl, Bool.and_self, if_true,
        Nat.mul_div_cancel _ one_pos, hsign]

-- ---------------------------------------------------------------------------
-- Ranges
-- ---------------------------------------------------------------------------

/-- The order of numbers, between the infinities. A NaN is below nothing. -/
def below (x y : Binary64) : Bool := !x.isNaN && !y.isNaN && decide (x.units < y.units)

def truncated (x : Binary64) : Int := signed x.isNegative (unitsOf x.magnitude / one)

theorem truncated_of_toInt? (h : x.toInt? = some n) : x.truncated = n := by
  obtain ⟨-, hunits, hsign⟩ := toInt?_eq_some h
  rw [truncated, hunits, Nat.mul_div_cancel _ one_pos, ← hsign]

theorem below_of_toInt? (hx : x.toInt? = some m) (hy : y.toInt? = some n) :
    x.below y = decide (m < n) := by
  have hone : (0 : Int) < one := Int.natCast_pos.mpr one_pos
  rw [below, isNaN_of_toInt? hx, isNaN_of_toInt? hy, units_of_toInt? hx, units_of_toInt? hy,
    Bool.not_false, Bool.true_and, Bool.true_and, decide_eq_decide]
  exact Int.mul_lt_mul_right hone

/-- A whole float that is tested against the floats nearest to the ends of a range is in the range,
although the float nearest to the upper end is the number above it. -/
theorem toInt64?_eq_range (x : Binary64) : x.toInt?.bind int64? =
    if x.isIntegral && !x.below (ofInt Int64.minValue.toInt) && x.below (ofInt Int64.maxValue.toInt)
    then some (saturate x.truncated) else none := by
  have hlow : (ofInt Int64.minValue.toInt).toInt? = some (-9223372036854775808) := by decide +kernel
  have hhigh : (ofInt Int64.maxValue.toInt).toInt? = some 9223372036854775808 := by decide +kernel
  cases h : x.toInt? with
  | none => simp [isIntegral, h]
  | some n =>
    rw [isIntegral, h, Option.isSome_some, Bool.true_and, below_of_toInt? h hlow,
      below_of_toInt? h hhigh, truncated_of_toInt? h, Option.bind_some]
    by_cases hrange : -9223372036854775808 ≤ n ∧ n < 9223372036854775808
    · obtain ⟨k, hk⟩ : ∃ k, int64? n = some k :=
        ⟨Int64.ofInt n, int64?_eq_some.mpr (Int64.toInt_ofInt_of_le (by omega) (by omega))⟩
      rw [hk, saturate_of_int64? hk, if_pos (by simp; omega)]
    · rw [if_neg (by simp; omega)]
      cases hk : int64? n with
      | none => rfl
      | some k =>
        have hn := int64?_eq_some.mp hk
        have hmin := k.le_toInt
        have hmax := k.toInt_lt
        omega

theorem toUInt64?_eq_range (x : Binary64) : x.toInt?.bind uint64? =
    if x.isIntegral && !x.below (ofInt 0) && x.below (ofInt (UInt64.size - 1))
    then some (UInt64.ofNat (min x.truncated.toNat (UInt64.size - 1))) else none := by
  have hlow : (ofInt 0).toInt? = some 0 := by decide +kernel
  have hhigh : (ofInt (UInt64.size - 1)).toInt? = some 18446744073709551616 := by decide +kernel
  have hsize : UInt64.size = 18446744073709551616 := rfl
  cases h : x.toInt? with
  | none => simp [isIntegral, h]
  | some n =>
    rw [isIntegral, h, Option.isSome_some, Bool.true_and, below_of_toInt? h hlow,
      below_of_toInt? h hhigh, truncated_of_toInt? h, Option.bind_some]
    by_cases hrange : 0 ≤ n ∧ n < 18446744073709551616
    · rw [if_pos (by simp; omega), uint64?_eq_some, Nat.min_eq_left (by omega),
        UInt64.toNat_ofNat_of_lt' (by omega)]
      omega
    · rw [if_neg (by simp; omega)]
      cases hk : uint64? n with
      | none => rfl
      | some k =>
        have hn := uint64?_eq_some.mp hk
        have hmax := k.toNat_lt
        omega

-- ---------------------------------------------------------------------------
-- Integers that are rounded
-- ---------------------------------------------------------------------------

/-- Whether an integer is rounded to a float without being it. -/
def absorbs (x : Binary64) (n : Int) : Bool := (ofInt n).equals x && x.toInt? != some n

/-- A float equals what an integer is rounded to if it is the integer or absorbs it. -/
theorem equals_ofInt (x : Binary64) (n : Int) :
    (ofInt n).equals x = (x.toInt? == some n || x.absorbs n) := by
  by_cases h : x.toInt? = some n
  · rw [equals_of_toInt? (toInt?_ofInt h) h, h]
    simp
  · rw [absorbs, bne, beq_eq_false_iff_ne.mpr h]
    simp

theorem isIntegral_of_equals_ofInt (hn : n.natAbs < UInt64.size) (h : (ofInt n).equals x = true) :
    x.isIntegral = true := by
  obtain ⟨k, hk⟩ := Option.isSome_iff_exists.mp (isIntegral_ofInt hn)
  obtain ⟨m, hm, hx⟩ := equals_iff_number?.mp h
  have hkm : some m = some (.rational k) := hm.symm.trans (toInt?_eq_some_iff.mp hk)
  rw [isIntegral, toInt?_eq_some_iff.mpr (hx.trans hkm)]
  rfl

theorem unitsOf_magnitudeOfUnits_of_lt (h : a < 2 * binade) (he : e ≤ 1900) :
    magnitudeOfUnits (a * Nat.pow 2 e) 1 < infinity ∧
      unitsOf (magnitudeOfUnits (a * Nat.pow 2 e) 1) = a * Nat.pow 2 e := by
  have hlog : (a * Nat.pow 2 e).log2 < 53 + e := by
    by_cases hzero : a * Nat.pow 2 e = 0
    · rw [hzero, Nat.log2_zero]
      omega
    · have hdouble : 2 * binade * Nat.pow 2 e = Nat.pow 2 (53 + e) := (Nat.pow_add 2 53 e).symm
      have hlt := Nat.mul_lt_mul_of_pos_right h (pow_two_pos e)
      exact (Nat.log2_lt hzero).mpr (Nat.lt_of_lt_of_eq hlt hdouble)
  obtain ⟨hfinite, hunits⟩ := unitsOf_magnitudeOfUnits (u := a * Nat.pow 2 e) (by omega)
  refine ⟨hfinite, hunits.trans ?_⟩
  -- no digit is cut off
  obtain ⟨low, hlow⟩ := Nat.exists_eq_add_of_le' (show (a * Nat.pow 2 e).log2 - 52 ≤ e by omega)
  generalize (a * Nat.pow 2 e).log2 - 52 = shift at *
  have hunit : Nat.pow 2 e = Nat.pow 2 low * Nat.pow 2 shift := hlow ▸ Nat.pow_add 2 low shift
  rw [hunit, ← Nat.mul_assoc, roundDiv_mul _ (pow_two_pos shift)]

theorem toInt?_ofInt_of_le (h : n.natAbs ≤ 2 * binade) : (ofInt n).toInt? = some n := by
  have hbinade : binade = 4503599627370496 := rfl
  rcases Nat.lt_or_eq_of_le h with hlt | heq
  · have hbit : infinity < signBit := by decide
    have hexact : magnitudeOfUnits (n.natAbs * one) 1 < infinity ∧
        unitsOf (magnitudeOfUnits (n.natAbs * one) 1) = n.natAbs * one := by
      unfold one
      apply unitsOf_magnitudeOfUnits_of_lt hlt
      decide
    obtain ⟨hm, hs⟩ := ofMagnitude_magnitude (n < 0) (Nat.lt_trans hexact.1 hbit)
    rw [toInt?, isFinite, ofInt, ofRatio, hm, hs, hexact.2]
    simp only [hexact.1, Nat.mul_mod_left, decide_true, BEq.rfl, Bool.and_self, if_true,
      Nat.mul_div_cancel _ one_pos, signed_natAbs]
  · rcases Int.natAbs_eq n with hn | hn
    · rw [hn, heq]
      decide +kernel
    · rw [hn, heq]
      decide +kernel

/-- Only integers beyond `2 ^ 53` that are no float themselves are absorbed. -/
theorem absorbs_only (h : x.absorbs n = true) :
    2 * binade < n.natAbs ∧ ∀ y : Binary64, y.toInt? ≠ some n := by
  rw [absorbs, Bool.and_eq_true, bne_iff_ne] at h
  have hnone : (ofInt n).toInt? ≠ some n := by
    intro hn
    obtain ⟨m, hm, hx⟩ := equals_iff_number?.mp h.1
    exact h.2 (toInt?_eq_some_iff.mpr (hx.trans (hm.symm.trans (toInt?_eq_some_iff.mp hn))))
  exact ⟨Nat.lt_of_not_le fun hle => hnone (toInt?_ofInt_of_le hle),
    fun y hy => hnone (toInt?_ofInt hy)⟩

end Binary64

end Positional
