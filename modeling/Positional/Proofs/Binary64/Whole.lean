import Positional.Binary64.Rounding

/-!
# Whole numbers among the floats

A float that is a whole number is the float nearest to it: converting the number back rounds
nothing. Among such floats, equality of numbers is equality of the whole numbers.
-/

namespace Positional

theorem natAbs_signed (negative : Bool) (size : Nat) : (signed negative size).natAbs = size := by
  cases negative <;> simp [signed]

theorem signed_mul (negative : Bool) (size factor : Nat) :
    signed negative (size * factor) = signed negative size * factor := by
  cases negative with
  | false => simp [signed]
  | true => exact (congrArg Neg.neg (Int.natCast_mul size factor)).trans (Int.neg_mul ..).symm

theorem signed_natAbs (n : Int) : signed (n < 0) n.natAbs = n := by
  by_cases h : n < 0
  · simp only [h, decide_true, signed, if_true]
    omega
  · simp only [h, decide_false, signed]
    simp only [Bool.false_eq_true, if_false]
    omega

namespace Binary64

theorem pow_two_pos (k : Nat) : 0 < Nat.pow 2 k := Nat.two_pow_pos k

theorem one_pos : 0 < one := by
  unfold one
  apply pow_two_pos

theorem binade_mul (e : Nat) : binade * Nat.pow 2 e = Nat.pow 2 (52 + e) :=
  (Nat.pow_add 2 52 e).symm

-- ---------------------------------------------------------------------------
-- Rounding what needs no rounding
-- ---------------------------------------------------------------------------

theorem roundDiv_mul (n : Nat) (h : 0 < den) : roundDiv (n * den) den = n := by
  have hrest : 2 * (n * den % den) < den := by
    rw [Nat.mul_mod_left]
    exact h
  rw [roundDiv, if_pos (by rw [decide_eq_true hrest, Bool.true_or]), Nat.mul_div_cancel n h]

theorem log2_shifted (h : f < binade) (e : Nat) : ((binade + f) * Nat.pow 2 e).log2 = 52 + e := by
  have hpow := pow_two_pos e
  have hne : (binade + f) * Nat.pow 2 e ≠ 0 := Nat.ne_of_gt (Nat.mul_pos (by omega) hpow)
  refine (Nat.log2_eq_iff hne).mpr ⟨?_, ?_⟩
  · exact Nat.le_trans (Nat.le_of_eq (binade_mul e).symm)
      (Nat.mul_le_mul_right _ (Nat.le_add_right ..))
  · have hdouble : (binade + f) * Nat.pow 2 e < binade * 2 * Nat.pow 2 e :=
      Nat.mul_lt_mul_of_pos_right (by omega) hpow
    rw [Nat.mul_right_comm, binade_mul] at hdouble
    exact hdouble

theorem magnitudeOfUnits_unitsOf (h : m < infinity) : magnitudeOfUnits (unitsOf m) 1 = m := by
  have hpos : 0 < binade := by decide
  by_cases hsmall : m < binade
  · have hlog : m.log2 - 52 = 0 := by
      by_cases hzero : m = 0
      · subst hzero; decide
      · have hlt : m.log2 < 52 := (Nat.log2_lt hzero).mpr hsmall
        omega
    have hround : roundDiv m (1 * Nat.pow 2 0) = m := by simpa using roundDiv_mul m Nat.one_pos
    rw [unitsOf, if_pos hsmall, magnitudeOfUnits, Nat.div_one, hlog, hround]
    omega
  · -- the exponent counts the binary digits beyond 53
    obtain ⟨e, he⟩ : ∃ e, m / binade = e + 1 :=
      Nat.exists_eq_add_one.mpr (Nat.div_pos (Nat.le_of_not_lt hsmall) hpos)
    have hvalue : binade * (e + 1) + m % binade = m := he ▸ Nat.div_add_mod ..
    have hround : roundDiv ((binade + m % binade) * Nat.pow 2 e) (1 * Nat.pow 2 e) =
        binade + m % binade := by
      rw [Nat.one_mul]
      exact roundDiv_mul _ (pow_two_pos e)
    rw [unitsOf, if_neg hsmall, he, Nat.add_sub_cancel, magnitudeOfUnits, Nat.div_one,
      log2_shifted (Nat.mod_lt m hpos), Nat.add_sub_cancel_left, hround, Nat.mul_comm e]
    rw [Nat.mul_succ] at hvalue
    omega

-- ---------------------------------------------------------------------------
-- Floats that are whole numbers
-- ---------------------------------------------------------------------------

variable {x y : Binary64}

theorem toInt?_eq_some (h : x.toInt? = some n) :
    x.magnitude < infinity ∧ unitsOf x.magnitude = n.natAbs * one ∧
      n = signed x.isNegative n.natAbs := by
  rw [toInt?] at h
  split at h
  · rename_i hwhole
    simp only [isFinite, Bool.and_eq_true, decide_eq_true_eq, beq_iff_eq] at hwhole
    cases h
    rw [natAbs_signed, Nat.div_mul_cancel (Nat.dvd_of_mod_eq_zero hwhole.2)]
    exact ⟨hwhole.1, rfl, rfl⟩
  · cases h

theorem units_of_toInt? (h : x.toInt? = some n) : x.units = n * one := by
  obtain ⟨-, hunits, hsign⟩ := toInt?_eq_some h
  rw [units, hunits, signed_mul, ← hsign]

theorem isNaN_of_toInt? (h : x.toInt? = some n) : x.isNaN = false := by
  have hlt := (toInt?_eq_some h).1
  simp only [isNaN, decide_eq_false_iff_not]
  omega

theorem equals_of_toInt? (hx : x.toInt? = some a) (hy : y.toInt? = some b) :
    x.equals y = decide (a = b) := by
  have hone : (one : Int) ≠ 0 := Int.ofNat_ne_zero.mpr (Nat.ne_of_gt one_pos)
  rw [equals, isNaN_of_toInt? hx, isNaN_of_toInt? hy, units_of_toInt? hx, units_of_toInt? hy,
    Bool.not_false, Bool.true_and, Bool.true_and, Bool.beq_eq_decide_eq, decide_eq_decide]
  exact Int.mul_eq_mul_right_iff hone

theorem equals_congr (hx : x.toInt? = some n) (hy : y.toInt? = some n) (z : Binary64) :
    x.equals z = y.equals z := by
  rw [equals, equals, isNaN_of_toInt? hx, isNaN_of_toInt? hy, units_of_toInt? hx, units_of_toInt? hy]

theorem ofMagnitude_magnitude (negative : Bool) (h : m < signBit) :
    (ofMagnitude negative m).magnitude = m ∧ (ofMagnitude negative m).isNegative = negative := by
  have hbit : signBit = 9223372036854775808 := rfl
  have hsize : UInt64.size = 18446744073709551616 := rfl
  cases negative with
  | true =>
    have hval : (UInt64.ofNat (signBit + m)).toNat = signBit + m :=
      UInt64.toNat_ofNat_of_lt' (by omega)
    constructor
    · rw [ofMagnitude, magnitude, if_pos rfl, hval, Nat.add_mod_left, Nat.mod_eq_of_lt h]
    · rw [ofMagnitude, isNegative, if_pos rfl, hval, decide_eq_true (Nat.le_add_right ..)]
  | false =>
    have hval : (UInt64.ofNat m).toNat = m := UInt64.toNat_ofNat_of_lt' (by omega)
    constructor
    · rw [ofMagnitude, magnitude, if_neg Bool.false_ne_true, hval, Nat.mod_eq_of_lt h]
    · rw [ofMagnitude, isNegative, if_neg Bool.false_ne_true, hval,
        decide_eq_false (Nat.not_le_of_lt h)]

theorem toInt?_ofInt (h : x.toInt? = some n) : (ofInt n).toInt? = some n := by
  obtain ⟨hfin, hunits, -⟩ := toInt?_eq_some h
  have hbit : infinity < signBit := by decide
  have hmag : ofInt n = ofMagnitude (n < 0) x.magnitude := by
    rw [ofInt, ofRatio, ← hunits, magnitudeOfUnits_unitsOf hfin]
  obtain ⟨hm, hs⟩ := ofMagnitude_magnitude (n < 0) (Nat.lt_trans hfin hbit)
  rw [hmag, toInt?, isFinite, hm, hs, hunits]
  simp only [hfin, Nat.mul_mod_left, decide_true, BEq.rfl, Bool.and_self, if_true,
    Nat.mul_div_cancel _ one_pos, signed_natAbs]

-- ---------------------------------------------------------------------------
-- Whole numbers as floats
-- ---------------------------------------------------------------------------

theorem le_roundDiv (num den : Nat) : num / den ≤ roundDiv num den := by
  simp only [roundDiv]
  split
  · exact Nat.le_refl _
  · exact Nat.le_succ _

theorem roundDiv_le (num den : Nat) : roundDiv num den ≤ num / den + 1 := by
  simp only [roundDiv]
  split
  · exact Nat.le_succ _
  · exact Nat.le_refl _

/-- What rounding keeps of a size: at most 53 binary digits, all of them used if any are cut off. -/
theorem roundDiv_digits (num den : Nat) :
    roundDiv num (den * Nat.pow 2 ((num / den).log2 - 52)) ≤ 2 * binade ∧
      ((num / den).log2 - 52 = 0 ∨
        binade ≤ num / (den * Nat.pow 2 ((num / den).log2 - 52))) := by
  generalize hu : num / den = u
  have hpow := pow_two_pos (u.log2 - 52)
  have hle := roundDiv_le num (den * Nat.pow 2 (u.log2 - 52))
  rw [← Nat.div_div_eq_div_mul, hu] at hle ⊢
  constructor
  · have hlt : u < 2 * binade * Nat.pow 2 (u.log2 - 52) := by
      have htop : u < Nat.pow 2 (u.log2 + 1) := Nat.lt_log2_self
      have hmono : Nat.pow 2 (u.log2 + 1) ≤ Nat.pow 2 (52 + (u.log2 - 52) + 1) :=
        Nat.pow_le_pow_right (by decide) (by omega)
      have hdouble : Nat.pow 2 (52 + (u.log2 - 52) + 1) = Nat.pow 2 (52 + (u.log2 - 52)) * 2 := rfl
      rw [Nat.mul_assoc, binade_mul]
      omega
    have hquotient := (Nat.div_lt_iff_lt_mul hpow).mpr hlt
    omega
  · by_cases hshift : u.log2 - 52 = 0
    · exact .inl hshift
    refine .inr ?_
    have hzero : u ≠ 0 := fun hu => hshift (by subst hu; decide)
    have hlog : 52 + (u.log2 - 52) = u.log2 := by omega
    exact (Nat.le_div_iff_mul_le hpow).mpr (by rw [binade_mul, hlog]; exact Nat.log2_self_le hzero)

theorem unitsOf_digits (hle : digits ≤ 2 * binade) (hge : shift = 0 ∨ binade ≤ digits) :
    unitsOf (shift * binade + digits) = digits * Nat.pow 2 shift := by
  have hpos : 0 < binade := by decide
  by_cases hsmall : digits < binade
  · obtain rfl : shift = 0 := hge.resolve_right (Nat.not_le_of_lt hsmall)
    rw [Nat.zero_mul, Nat.zero_add, unitsOf, if_pos hsmall]
    exact (Nat.mul_one _).symm
  · obtain ⟨fraction, rfl⟩ := Nat.exists_eq_add_of_le (Nat.le_of_not_lt hsmall)
    have hsplit : shift * binade + (binade + fraction) = fraction + binade * (shift + 1) := by
      rw [Nat.mul_succ, Nat.mul_comm]
      omega
    rw [hsplit, unitsOf, if_neg (by rw [Nat.mul_succ]; omega), Nat.add_mul_mod_self_left,
      Nat.add_mul_div_left _ _ hpos]
    by_cases hfull : fraction < binade
    · rw [Nat.mod_eq_of_lt hfull, Nat.div_eq_of_lt hfull, Nat.zero_add, Nat.add_sub_cancel]
    · -- rounded up to the next power of two
      obtain rfl : fraction = binade := by omega
      have hdouble : Nat.pow 2 (shift + 1) = Nat.pow 2 shift * 2 := rfl
      rw [Nat.mod_self, Nat.div_self hpos, Nat.add_comm 1, Nat.add_sub_cancel, hdouble, Nat.add_zero,
        Nat.mul_comm _ 2, ← Nat.mul_assoc, Nat.mul_two]

/-- Short of infinity, rounding keeps the leading binary digits of a size where they are. -/
theorem unitsOf_magnitudeOfUnits (h : u.log2 ≤ 2000) : magnitudeOfUnits u 1 < infinity ∧
    unitsOf (magnitudeOfUnits u 1) =
      roundDiv u (Nat.pow 2 (u.log2 - 52)) * Nat.pow 2 (u.log2 - 52) := by
  have hdigits := roundDiv_digits u 1
  rw [Nat.div_one, Nat.one_mul] at hdigits
  obtain ⟨hle, hlow⟩ := hdigits
  have hge := hlow.imp_right fun h => Nat.le_trans h (le_roundDiv u (Nat.pow 2 (u.log2 - 52)))
  have hinf : infinity = 2047 * binade := rfl
  have hpos : 0 < binade := by decide
  have hshift : u.log2 - 52 ≤ 1948 := by omega
  have hcut := Nat.mul_le_mul_right binade hshift
  have hmag : magnitudeOfUnits u 1 =
      (u.log2 - 52) * binade + roundDiv u (Nat.pow 2 (u.log2 - 52)) := by
    rw [magnitudeOfUnits, Nat.div_one, Nat.one_mul]
    omega
  rw [hmag]
  exact ⟨by omega, unitsOf_digits hle hge⟩

/-- Rounding a multiple of a power of two leaves a multiple of it: either no digit is lost, or what
is left is a multiple of a greater power. -/
theorem roundDiv_dvd (n unit shift : Nat) : Nat.pow 2 unit ∣
    roundDiv (n * Nat.pow 2 unit) (Nat.pow 2 shift) * Nat.pow 2 shift := by
  rcases Nat.le_total shift unit with hle | hge
  · obtain ⟨low, rfl⟩ := Nat.exists_eq_add_of_le' hle
    have hunit : Nat.pow 2 (low + shift) = Nat.pow 2 low * Nat.pow 2 shift := Nat.pow_add 2 low shift
    rw [hunit, ← Nat.mul_assoc, roundDiv_mul _ (pow_two_pos shift), Nat.mul_assoc]
    exact Nat.dvd_mul_left ..
  · exact Nat.dvd_mul_left_of_dvd (Nat.pow_dvd_pow 2 hge) _

theorem log2_mul_le (h : n < UInt64.size) (unit : Nat) : (n * Nat.pow 2 unit).log2 ≤ 64 + unit := by
  by_cases hzero : n * Nat.pow 2 unit = 0
  · rw [hzero, Nat.log2_zero]
    exact Nat.zero_le _
  · have hpow : UInt64.size * Nat.pow 2 unit = Nat.pow 2 (64 + unit) := (Nat.pow_add 2 64 unit).symm
    have hlt := Nat.mul_lt_mul_of_pos_right h (pow_two_pos unit)
    rw [hpow] at hlt
    exact Nat.le_of_lt ((Nat.log2_lt hzero).mpr hlt)

theorem dvd_unitsOf (h : n < UInt64.size) (hu : 64 + unit ≤ 2000) :
    magnitudeOfUnits (n * Nat.pow 2 unit) 1 < infinity ∧
      Nat.pow 2 unit ∣ unitsOf (magnitudeOfUnits (n * Nat.pow 2 unit) 1) := by
  obtain ⟨hfin, hunits⟩ := unitsOf_magnitudeOfUnits (Nat.le_trans (log2_mul_le h unit) hu)
  rw [hunits]
  exact ⟨hfin, roundDiv_dvd ..⟩

theorem isIntegral_iff : x.isIntegral = true ↔
    x.magnitude < infinity ∧ one ∣ unitsOf x.magnitude := by
  simp [isIntegral, toInt?, isFinite, Nat.dvd_iff_mod_eq_zero]

theorem isIntegral_ofInt (h : n.natAbs < UInt64.size) : (ofInt n).isIntegral = true := by
  obtain ⟨hfin, hdvd⟩ : magnitudeOfUnits (n.natAbs * one) 1 < infinity ∧
      one ∣ unitsOf (magnitudeOfUnits (n.natAbs * one) 1) := by
    unfold one
    apply dvd_unitsOf h
    decide
  have hbit : infinity < signBit := by decide
  obtain ⟨hm, -⟩ := ofMagnitude_magnitude (n < 0) (Nat.lt_trans hfin hbit)
  rw [isIntegral_iff, ofInt, ofRatio, hm]
  exact ⟨hfin, hdvd⟩

theorem isFinite_ofInt (h : n.natAbs < UInt64.size) : (ofInt n).isFinite = true := by
  obtain ⟨m, hm⟩ := Option.isSome_iff_exists.mp (isIntegral_ofInt h)
  exact decide_eq_true (toInt?_eq_some hm).1

end Binary64

end Positional
