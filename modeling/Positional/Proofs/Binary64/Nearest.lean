import Mathlib.Order.Monotone.Basic
import Mathlib.Tactic.Ring
import Positional.Proofs.Binary64.Whole

/-!
# The nearest float

The sizes of magnitudes grow with the magnitudes, so between two neighbours there is a middle, and a
size rounds to the magnitude whose two middles it lies between; on a middle, to the even one. What
`magnitudeOfUnits` computes is this magnitude, and there is no other.
-/

namespace Positional

namespace Binary64

-- ---------------------------------------------------------------------------
-- Sizes of neighbours
-- ---------------------------------------------------------------------------

theorem exists_digits (m : Nat) : ∃ shift digits, m = shift * binade + digits ∧
    digits < 2 * binade ∧ (shift = 0 ∨ binade ≤ digits) := by
  have hpos : 0 < binade := by decide
  by_cases h : m < binade
  · exact ⟨0, m, by omega, by omega, .inl rfl⟩
  · obtain ⟨e, he⟩ : ∃ e, m / binade = e + 1 :=
      Nat.exists_eq_add_one.mpr (Nat.div_pos (Nat.le_of_not_lt h) hpos)
    have hsplit := Nat.div_add_mod m binade
    have hmod := Nat.mod_lt m hpos
    rw [he, Nat.mul_succ, Nat.mul_comm] at hsplit
    exact ⟨e, binade + m % binade, by omega, by omega, .inr (by omega)⟩

theorem unitsOf_lt_succ (m : Nat) : unitsOf m < unitsOf (m + 1) := by
  obtain ⟨shift, digits, rfl, hlt, hge⟩ := exists_digits m
  rw [unitsOf_digits (Nat.le_of_lt hlt) hge, Nat.add_assoc, unitsOf_digits (by omega) (by omega)]
  exact Nat.mul_lt_mul_of_pos_right (Nat.lt_succ_self digits) (pow_two_pos shift)

theorem unitsOf_strictMono : StrictMono unitsOf := strictMono_nat_of_lt_succ unitsOf_lt_succ

theorem unitsOf_zero : unitsOf 0 = 0 := rfl

-- ---------------------------------------------------------------------------
-- Patterns
-- ---------------------------------------------------------------------------

variable {x y : Binary64}

theorem ofMagnitude_self (x : Binary64) : ofMagnitude x.isNegative x.magnitude = x := by
  obtain ⟨bits⟩ := x
  have hlt := bits.toNat_lt
  have hbit : signBit = 9223372036854775808 := rfl
  have hwhole : (if decide (signBit ≤ bits.toNat) then signBit + bits.toNat % signBit
      else bits.toNat % signBit) = bits.toNat := by
    simp only [decide_eq_true_eq, hbit]
    split <;> omega
  rw [ofMagnitude, isNegative, magnitude, hwhole, UInt64.ofNat_toNat]

theorem ext_magnitude (hs : x.isNegative = y.isNegative) (hm : x.magnitude = y.magnitude) : x = y := by
  rw [← ofMagnitude_self x, ← ofMagnitude_self y, hs, hm]

def isNegativeZero (x : Binary64) : Bool := x.isNegative && x.magnitude == 0

theorem isNegative_of_signed (hx : x.isNegativeZero = false) (hn : signed x.isNegative size = n)
    (hz : size = 0 → x.magnitude = 0) : x.isNegative = decide (n < 0) := by
  cases hs : x.isNegative with
  | false =>
    rw [hs, signed, if_neg Bool.false_ne_true] at hn
    exact (decide_eq_false (by omega)).symm
  | true =>
    rw [isNegativeZero, hs, Bool.true_and, beq_eq_false_iff_ne] at hx
    rw [hs, signed, if_pos rfl] at hn
    have hsize : size ≠ 0 := mt hz hx
    exact (decide_eq_true (by omega)).symm

theorem magnitude_eq_zero (h : unitsOf m = 0) : m = 0 :=
  unitsOf_strictMono.injective (h.trans unitsOf_zero.symm)

/-- But for the negative zero, numerically equal floats are the same pattern. -/
theorem eq_of_equals (hx : x.isNegativeZero = false) (hy : y.isNegativeZero = false)
    (h : x.equals y = true) : x = y := by
  simp only [equals, Bool.and_eq_true, beq_iff_eq] at h
  have hsize := congrArg Int.natAbs h.2
  rw [units, units, natAbs_signed, natAbs_signed] at hsize
  refine ext_magnitude ?_ (unitsOf_strictMono.injective hsize)
  rw [isNegative_of_signed hx h.2 magnitude_eq_zero, isNegative_of_signed hy rfl magnitude_eq_zero]
  rfl

/-- But for the negative zero, a whole float is what its number converts to. -/
theorem ofInt_of_toInt? (hx : x.isNegativeZero = false) (h : x.toInt? = some n) : ofInt n = x := by
  obtain ⟨hfin, hunits, hsign⟩ := toInt?_eq_some h
  have hneg := isNegative_of_signed hx hsign.symm fun hn =>
    magnitude_eq_zero (by rw [hunits, hn, Nat.zero_mul])
  rw [ofInt, ofRatio, ← hunits, magnitudeOfUnits_unitsOf hfin, ← hneg, ofMagnitude_self]

-- ---------------------------------------------------------------------------
-- The reals that round to a magnitude
-- ---------------------------------------------------------------------------

/-- Whether `num / den` units lie among the reals that round to the magnitude: between the middles
to its neighbours, which belong to the interval if the magnitude is even. -/
def Rounds (m num den : Nat) : Prop :=
  (unitsOf (m - 1) + unitsOf m) * den ≤ 2 * num ∧ 2 * num ≤ (unitsOf m + unitsOf (m + 1)) * den ∧
    (m % 2 = 1 → (unitsOf (m - 1) + unitsOf m) * den ≠ 2 * num ∧
      2 * num ≠ (unitsOf m + unitsOf (m + 1)) * den)

theorem Rounds.not_lt (hden : 0 < den) (h : Rounds m num den) (h' : Rounds m' num den) :
    ¬ m < m' := by
  intro hlt
  have hlow : unitsOf m ≤ unitsOf (m' - 1) := unitsOf_strictMono.monotone (by omega)
  have hhigh : unitsOf (m + 1) ≤ unitsOf m' := unitsOf_strictMono.monotone (by omega)
  have hends : (unitsOf m + unitsOf (m + 1)) * den = (unitsOf (m' - 1) + unitsOf m') * den :=
    Nat.le_antisymm (Nat.mul_le_mul_right den (by omega)) (h'.1.trans h.2.1)
  have hmiddle : 2 * num = (unitsOf m + unitsOf (m + 1)) * den :=
    Nat.le_antisymm h.2.1 (hends ▸ h'.1)
  -- the two share only a middle, which lies between neighbours, of which one is odd
  have hsum : unitsOf m + unitsOf (m + 1) = unitsOf (m' - 1) + unitsOf m' :=
    Nat.eq_of_mul_eq_mul_right hden hends
  have hnext : m + 1 = m' := unitsOf_strictMono.injective (by omega)
  have heven : m % 2 ≠ 1 := fun hodd => (h.2.2 hodd).2 hmiddle
  have heven' : m' % 2 ≠ 1 := fun hodd => (h'.2.2 hodd).1 (hends ▸ hmiddle.symm)
  omega

theorem Rounds.unique (hden : 0 < den) (h : Rounds m num den) (h' : Rounds m' num den) : m = m' :=
  Nat.le_antisymm (Nat.le_of_not_lt (h'.not_lt hden h)) (Nat.le_of_not_lt (h.not_lt hden h'))

theorem Rounds.of_eq (hden : 0 < den) (hden' : 0 < den') (heq : num * den' = num' * den)
    (h : Rounds m num den) : Rounds m num' den' := by
  have hscale : ∀ u, (u * den' ≤ 2 * num' ↔ u * den ≤ 2 * num) ∧
      (2 * num' ≤ u * den' ↔ 2 * num ≤ u * den) := by
    intro u
    have hu : u * den' * den = u * den * den' := Nat.mul_right_comm ..
    have hn : 2 * num' * den = 2 * num * den' := by
      rw [Nat.mul_assoc, Nat.mul_assoc, heq]
    constructor
    · rw [← Nat.mul_le_mul_right_iff hden, hu, hn, Nat.mul_le_mul_right_iff hden']
    · rw [← Nat.mul_le_mul_right_iff hden, hu, hn, Nat.mul_le_mul_right_iff hden']
  simp only [Rounds, ne_eq, Nat.le_antisymm_iff, hscale] at h ⊢
  exact h

-- ---------------------------------------------------------------------------
-- Rounding
-- ---------------------------------------------------------------------------

/-- The rounded quotient is within a half of the quotient, and even if it is a half off. -/
theorem roundDiv_spec (num : Nat) (h : 0 < den) :
    2 * num ≤ (2 * roundDiv num den + 1) * den ∧ 2 * roundDiv num den * den ≤ 2 * num + den ∧
      (roundDiv num den % 2 = 1 → 2 * num ≠ (2 * roundDiv num den + 1) * den ∧
        2 * roundDiv num den * den ≠ 2 * num + den) := by
  have hsplit := Nat.div_add_mod num den
  have hrest := Nat.mod_lt num h
  generalize hq : num / den = q at *
  generalize hr : num % den = r at *
  simp only [roundDiv, hq, hr, Bool.or_eq_true, decide_eq_true_eq, Bool.and_eq_true, beq_iff_eq]
  have hmul : ∀ k, (2 * k + 1) * den = 2 * (den * k) + den ∧ 2 * k * den = 2 * (den * k) :=
    fun k => ⟨by ring, by ring⟩
  split
  · rename_i hdown
    rw [(hmul q).1, (hmul q).2]
    omega
  · rename_i hup
    rw [(hmul (q + 1)).1, (hmul (q + 1)).2, Nat.mul_succ]
    omega

variable {shift digits : Nat}

theorem le_unitsOf_next (hle : digits ≤ 2 * binade) (hge : shift = 0 ∨ binade ≤ digits) :
    (digits + 1) * Nat.pow 2 shift ≤ unitsOf (shift * binade + digits + 1) := by
  by_cases hfull : digits = 2 * binade
  · -- rounded up to the next power of two
    subst hfull
    have hnext : shift * binade + 2 * binade + 1 = (shift + 1) * binade + (binade + 1) := by
      rw [Nat.succ_mul shift]
      omega
    have hdouble : Nat.pow 2 (shift + 1) = 2 * Nat.pow 2 shift := Nat.pow_succ'
    have hbinade : 1 ≤ binade := by decide
    rw [hnext, unitsOf_digits (by omega) (by omega), hdouble, ← Nat.mul_assoc]
    exact Nat.mul_le_mul_right _ (by omega)
  · rw [Nat.add_assoc, unitsOf_digits (by omega) (by omega)]

theorem unitsOf_previous (hle : digits ≤ 2 * binade) (h : shift = 0 ∨ binade < digits)
    (hpos : 0 < digits) : unitsOf (shift * binade + digits - 1) = (digits - 1) * Nat.pow 2 shift := by
  rw [Nat.add_sub_assoc hpos, unitsOf_digits (by omega) (by omega)]

theorem mul_unit (k : Nat) : k * Nat.pow 2 shift * den = k * (den * Nat.pow 2 shift) := by ring

theorem le_middle_above (hle : digits ≤ 2 * binade) (hge : shift = 0 ∨ binade ≤ digits) (den : Nat) :
    (2 * digits + 1) * (den * Nat.pow 2 shift) ≤
      (unitsOf (shift * binade + digits) + unitsOf (shift * binade + digits + 1)) * den := by
  have hnext := Nat.mul_le_mul_right den (le_unitsOf_next hle hge)
  rw [mul_unit] at hnext
  calc (2 * digits + 1) * (den * Nat.pow 2 shift)
      = digits * (den * Nat.pow 2 shift) + (digits + 1) * (den * Nat.pow 2 shift) := by ring
    _ ≤ digits * (den * Nat.pow 2 shift) + unitsOf (shift * binade + digits + 1) * den :=
      Nat.add_le_add_left hnext _
    _ = _ := by rw [unitsOf_digits hle hge, Nat.add_mul (digits * _), mul_unit]

theorem middle_below (hle : digits ≤ 2 * binade) (hinner : shift = 0 ∨ binade < digits)
    (hpos : 0 < digits) (den : Nat) :
    (unitsOf (shift * binade + digits - 1) + unitsOf (shift * binade + digits)) * den
      + den * Nat.pow 2 shift = 2 * digits * (den * Nat.pow 2 shift) := by
  obtain ⟨k, rfl⟩ := Nat.exists_eq_add_one.mpr hpos
  rw [unitsOf_previous hle hinner hpos, unitsOf_digits hle (hinner.imp_right Nat.le_of_lt), Nat.add_mul,
    mul_unit, mul_unit, Nat.add_sub_cancel]
  ring

/-- A fraction rounds to the magnitude of its rounded digits, were there no greatest one. -/
theorem rounds_digits (num : Nat) (h : 0 < den) (hs : (num / den).log2 - 52 = shift) :
    Rounds (shift * binade + roundDiv num (den * Nat.pow 2 shift)) num den := by
  have hpow := pow_two_pos shift
  have hunit : 0 < den * Nat.pow 2 shift := Nat.mul_pos h hpow
  obtain ⟨hup, hdown, hodd⟩ := roundDiv_spec num hunit
  have hdigits := roundDiv_digits num den
  rw [hs] at hdigits
  obtain ⟨hle, hlow⟩ := hdigits
  have hfloor := le_roundDiv num (den * Nat.pow 2 shift)
  have hquotient := Nat.div_mul_le_self num (den * Nat.pow 2 shift)
  generalize num / (den * Nat.pow 2 shift) = quotient at hlow hfloor hquotient
  generalize roundDiv num (den * Nat.pow 2 shift) = digits at *
  have hge : shift = 0 ∨ binade ≤ digits := hlow.imp_right (·.trans hfloor)
  have hparity : (shift * binade + digits) % 2 = digits % 2 := by
    have heven : shift * binade % 2 = 0 := by rw [Nat.mul_mod, show binade % 2 = 0 from rfl]; simp
    omega
  have hhigh := le_middle_above hle hge den
  rcases Nat.eq_zero_or_pos digits with rfl | hpos
  · obtain rfl : shift = 0 := hge.resolve_right (by decide)
    exact ⟨by simp [unitsOf_zero], hup.trans hhigh, fun hone => by simp at hone⟩
  by_cases hinner : shift = 0 ∨ binade < digits
  · have hbelow := middle_below hle hinner hpos den
    refine ⟨by omega, hup.trans hhigh, fun hone => ?_⟩
    have hne := hodd (hparity ▸ hone)
    exact ⟨by omega, by omega⟩
  · -- at a power of two the digits do not exceed the fraction
    obtain rfl : digits = binade := by omega
    have hfit : binade * (den * Nat.pow 2 shift) ≤ num :=
      (Nat.mul_le_mul_right _ (hlow.resolve_left (by omega))).trans hquotient
    have hmono : unitsOf (shift * binade + binade - 1) ≤ unitsOf (shift * binade + binade) :=
      unitsOf_strictMono.monotone (Nat.sub_le ..)
    refine ⟨?_, hup.trans hhigh, fun hone => absurd (hparity ▸ hone) (by decide)⟩
    calc (unitsOf (shift * binade + binade - 1) + unitsOf (shift * binade + binade)) * den
        ≤ (unitsOf (shift * binade + binade) + unitsOf (shift * binade + binade)) * den :=
          Nat.mul_le_mul_right den (Nat.add_le_add_right hmono _)
      _ = 2 * (binade * (den * Nat.pow 2 shift)) := by
        rw [unitsOf_digits hle hge]
        ring
      _ ≤ 2 * num := Nat.mul_le_mul_left 2 hfit

theorem magnitudeOfUnits_of_rounds (h : 0 < den) (hr : Rounds m num den) (hm : m < infinity) :
    magnitudeOfUnits num den = m := by
  have hdigits := (rounds_digits num h rfl).unique h hr
  rw [magnitudeOfUnits, hdigits]
  exact Nat.min_eq_right (Nat.le_of_lt hm)

-- ---------------------------------------------------------------------------
-- Integers that floats tell apart
-- ---------------------------------------------------------------------------

theorem exists_one_eq : ∃ e, one = Nat.pow 2 e := by
  unfold one
  exact ⟨_, Eq.refl _⟩

theorem unitsOf_succ_le (h : unitsOf m < 2 * binade * one) : unitsOf (m + 1) ≤ unitsOf m + one := by
  obtain ⟨shift, digits, rfl, hlt, hge⟩ := exists_digits m
  rw [unitsOf_digits (Nat.le_of_lt hlt) hge] at h
  rw [unitsOf_digits (Nat.le_of_lt hlt) hge, Nat.add_assoc, unitsOf_digits (by omega) (by omega),
    Nat.succ_mul]
  obtain ⟨e, he⟩ := exists_one_eq
  rw [he] at h ⊢
  refine Nat.add_le_add_left (Nat.pow_le_pow_right (by decide) (Nat.le_of_not_lt fun hs => ?_)) _
  have hunit : 2 * Nat.pow 2 e ≤ Nat.pow 2 shift :=
    (Nat.pow_succ' (n := e)).symm.trans_le (Nat.pow_le_pow_right (by decide) hs)
  have hdigits : binade ≤ digits := hge.resolve_left (by omega)
  have hsize := Nat.mul_le_mul hdigits hunit
  rw [← Nat.mul_assoc, Nat.mul_comm binade 2] at hsize
  exact absurd h (Nat.not_lt_of_le hsize)

theorem eq_of_toInt?_ofInt (h : (ofInt k).toInt? = some n) (hn : n.natAbs < 2 * binade) : k = n := by
  obtain ⟨hfin, hunits, hsign⟩ := toInt?_eq_some h
  have hinf : infinity < signBit := by decide
  have hmin : magnitudeOfUnits (k.natAbs * one) 1 ≤ infinity := Nat.min_le_left ..
  obtain ⟨hmag, hneg⟩ := ofMagnitude_magnitude (k < 0) (Nat.lt_of_le_of_lt hmin hinf)
  rw [ofInt, ofRatio, hmag] at hfin hunits
  rw [ofInt, ofRatio, hneg] at hsign
  -- rounding did not end at infinity
  have hround : Rounds (magnitudeOfUnits (k.natAbs * one) 1) (k.natAbs * one) 1 := by
    have hdigits := rounds_digits (k.natAbs * one) Nat.one_pos rfl
    rw [magnitudeOfUnits] at hfin ⊢
    rwa [Nat.min_eq_right (by omega)]
  generalize magnitudeOfUnits (k.natAbs * one) 1 = m at *
  obtain ⟨hlow, hhigh, -⟩ := hround
  have hsmall : unitsOf m < 2 * binade * one := by
    rw [hunits]
    exact Nat.mul_lt_mul_of_pos_right hn one_pos
  have hnext := unitsOf_succ_le hsmall
  have hprevious : unitsOf m ≤ unitsOf (m - 1) + one := by
    cases m with
    | zero =>
      rw [Nat.zero_sub]
      exact Nat.le_add_right _ _
    | succ m => exact unitsOf_succ_le ((unitsOf_lt_succ m).trans hsmall)
  have hpos := one_pos
  rw [Nat.mul_one] at hlow hhigh
  generalize one = unit at *
  -- both middles are within half a unit
  have hbelow : n.natAbs * unit < (k.natAbs + 1) * unit := by
    rw [Nat.succ_mul]
    omega
  have habove : k.natAbs * unit < (n.natAbs + 1) * unit := by
    rw [Nat.succ_mul]
    omega
  have hsize : k.natAbs = n.natAbs :=
    Nat.le_antisymm (Nat.le_of_lt_succ (Nat.lt_of_mul_lt_mul_right habove))
      (Nat.le_of_lt_succ (Nat.lt_of_mul_lt_mul_right hbelow))
  rw [hsign, ← hsize, signed_natAbs]

end Binary64

end Positional
