import Positional.Binary64.Shortest
import Positional.Proofs.Binary64.Nearest

/-!
# Decimals that read back

The digits that are written for a number lie among the reals that round to it, so a correctly rounded
conversion of the decimal gives the number again. There always are such digits: on the place of the
seventeenth, one of the two neighbours of the number is nearer to it than the middles to the next
magnitudes.
-/

namespace Positional

namespace Binary64

-- ---------------------------------------------------------------------------
-- Digits that read back
-- ---------------------------------------------------------------------------

theorem pow_ten_pos (k : Nat) : 0 < Nat.pow 10 k := Nat.pow_pos (by decide)

theorem scale_pos : 0 < scale := by
  unfold scale
  apply pow_ten_pos

theorem placeSize_pos (place : Nat) : 0 < placeSize place :=
  Nat.mul_pos (pow_ten_pos place) (Nat.mul_pos (by decide) one_pos)

theorem placeSize_eq (place : Nat) : placeSize place = 2 * (Nat.pow 10 place * one) := by
  rw [placeSize]
  ring

theorem readsBack_iff :
    readsBack m place digits = true ↔ Rounds m (digits * (Nat.pow 10 place * one)) scale := by
  have hsize : digits * placeSize place = 2 * (digits * (Nat.pow 10 place * one)) := by
    rw [placeSize_eq]
    ring
  simp only [readsBack, hsize]
  split
  · rename_i heven
    have hodd : m % 2 ≠ 1 := by simp at heven; omega
    simp [Rounds, hodd]
  · rename_i hodd
    have hodd : m % 2 = 1 := by simp at hodd; omega
    simp only [Rounds, hodd, Bool.and_eq_true, decide_eq_true_eq, true_implies]
    omega

theorem readsBack_of_between (hlow : (unitsOf (m - 1) + unitsOf m) * scale < digits * placeSize place)
    (hhigh : digits * placeSize place < (unitsOf m + unitsOf (m + 1)) * scale) :
    readsBack m place digits = true := by
  simp only [readsBack]
  split
  · simp [Nat.le_of_lt hlow, Nat.le_of_lt hhigh]
  · simp [hlow, hhigh]

theorem readsBack_of_digitsAt? (h : digitsAt? rule m place = some digits) :
    readsBack m place digits = true := by
  simp only [digitsAt?] at h
  split at h
  · cases h
  · rename_i hbelow _
    cases h
    exact hbelow
  · rename_i habove
    cases h
    exact habove
  · rename_i hbelow habove
    split at h
    · cases h
      exact hbelow
    · split at h
      · cases h
        exact habove
      · cases rule with
        | up =>
          cases h
          exact habove
        | toEven =>
          simp only at h
          split at h <;> cases h
          · exact hbelow
          · exact habove

theorem pos_of_readsBack (hm : 0 < m) (h : readsBack m place digits = true) : 0 < digits := by
  refine Nat.pos_of_ne_zero ?_
  rintro rfl
  have hunits : 0 < unitsOf m := unitsOf_zero ▸ unitsOf_strictMono hm
  have hlow := (readsBack_iff.mp h).1
  have hpos : 0 < (unitsOf (m - 1) + unitsOf m) * scale := Nat.mul_pos (by omega) scale_pos
  omega

-- ---------------------------------------------------------------------------
-- Seventeen digits suffice
-- ---------------------------------------------------------------------------

theorem two_mul_unitsOf_lt (h : 0 < m) :
    2 * unitsOf m < 10000000000000000 * (unitsOf (m + 1) - unitsOf (m - 1)) := by
  obtain ⟨shift, digits, rfl, hlt, hge⟩ := exists_digits m
  have hpow := pow_two_pos shift
  have hbinade : binade = 4503599627370496 := rfl
  have hnext := le_unitsOf_next (Nat.le_of_lt hlt) hge
  have hunits := unitsOf_digits (Nat.le_of_lt hlt) hge
  have hdigits : 0 < digits := by
    refine Nat.pos_of_ne_zero ?_
    rintro rfl
    obtain rfl : shift = 0 := hge.resolve_right (by decide)
    simp at h
  by_cases hinner : shift = 0 ∨ binade < digits
  · obtain ⟨k, rfl⟩ := Nat.exists_eq_add_one.mpr hdigits
    have hprevious := unitsOf_previous (Nat.le_of_lt hlt) hinner hdigits
    rw [Nat.add_sub_cancel] at hprevious
    have hgap : 2 * Nat.pow 2 shift ≤ unitsOf (shift * binade + (k + 1) + 1)
        - unitsOf (shift * binade + (k + 1) - 1) := by
      rw [hprevious]
      have hsum : (k + 1 + 1) * Nat.pow 2 shift = k * Nat.pow 2 shift + 2 * Nat.pow 2 shift := by ring
      omega
    rw [hunits]
    calc 2 * ((k + 1) * Nat.pow 2 shift) = (k + 1) * (2 * Nat.pow 2 shift) := by ring
      _ < 10000000000000000 * (2 * Nat.pow 2 shift) :=
        Nat.mul_lt_mul_of_pos_right (by omega) (by omega)
      _ ≤ _ := Nat.mul_le_mul_left _ hgap
  · -- below a power of two the numbers are denser, but its digits are the fewest
    obtain rfl : digits = binade := by omega
    have hmono : unitsOf (shift * binade + binade - 1) ≤ unitsOf (shift * binade + binade) :=
      unitsOf_strictMono.monotone (Nat.sub_le ..)
    have hgap : Nat.pow 2 shift ≤ unitsOf (shift * binade + binade + 1)
        - unitsOf (shift * binade + binade - 1) := by
      have hsum : (binade + 1) * Nat.pow 2 shift = binade * Nat.pow 2 shift + Nat.pow 2 shift := by ring
      omega
    rw [hunits]
    calc 2 * (binade * Nat.pow 2 shift) = 2 * binade * Nat.pow 2 shift := by ring
      _ < 10000000000000000 * Nat.pow 2 shift := Nat.mul_lt_mul_of_pos_right (by omega) hpow
      _ ≤ _ := Nat.mul_le_mul_left _ hgap

theorem digitsAt?_isSome (rule : HalfwayRule)
    (h : readsBack m place (2 * unitsOf m * scale / placeSize place) = true ∨
      readsBack m place (2 * unitsOf m * scale / placeSize place + 1) = true) :
    (digitsAt? rule m place).isSome = true := by
  simp only [digitsAt?]
  split
  · rename_i hbelow habove
    simp [hbelow, habove] at h
  · rfl
  · rfl
  · split
    · rfl
    · split
      · rfl
      · cases rule <;> rfl

/-- On a place that is fine enough, one of the neighbours of the number reads back. -/
theorem digitsAt?_of_fine (rule : HalfwayRule) (hm : 0 < m)
    (h : placeSize place < (unitsOf (m + 1) - unitsOf (m - 1)) * scale) :
    (digitsAt? rule m place).isSome = true := by
  have hprevious : unitsOf (m - 1) < unitsOf m := unitsOf_strictMono (by omega)
  have hnext : unitsOf m < unitsOf (m + 1) := unitsOf_lt_succ m
  obtain ⟨lower, hlower⟩ := Nat.exists_eq_add_of_le (Nat.le_of_lt hprevious)
  obtain ⟨upper, hupper⟩ := Nat.exists_eq_add_of_le (Nat.le_of_lt hnext)
  have hgap : unitsOf (m + 1) - unitsOf (m - 1) = lower + upper := by omega
  rw [hgap, Nat.add_mul] at h
  have hsplit := Nat.div_add_mod (2 * unitsOf m * scale) (placeSize place)
  have hrest := Nat.mod_lt (2 * unitsOf m * scale) (placeSize_pos place)
  refine digitsAt?_isSome rule ?_
  generalize 2 * unitsOf m * scale / placeSize place = below at *
  generalize 2 * unitsOf m * scale % placeSize place = rest at *
  have hlow : (unitsOf (m - 1) + unitsOf m) * scale + lower * scale = 2 * unitsOf m * scale := by
    rw [hlower]
    ring
  have hhigh : (unitsOf m + unitsOf (m + 1)) * scale = 2 * unitsOf m * scale + upper * scale := by
    rw [hupper]
    ring
  have hpositive : 0 < lower * scale ∧ 0 < upper * scale :=
    ⟨Nat.mul_pos (by omega) scale_pos, Nat.mul_pos (by omega) scale_pos⟩
  have hproduct : below * placeSize place = placeSize place * below := Nat.mul_comm ..
  -- the number is nearer to one of them than the middle on that side
  by_cases hnear : rest < lower * scale
  · exact .inl (readsBack_of_between (by omega) (by omega))
  · have hstep : (below + 1) * placeSize place = placeSize place * below + placeSize place := by ring
    exact .inr (readsBack_of_between (by omega) (by omega))

theorem le_scale_div_one : 10000000000000000 * one ≤ scale := by decide +kernel

theorem leadingPlace_spec (h : 0 < m) : 16 ≤ leadingPlace m ∧
    Nat.pow 10 (leadingPlace m) * one ≤ unitsOf m * scale := by
  have hunits : 0 < unitsOf m := unitsOf_zero ▸ unitsOf_strictMono h
  have hsize : 10000000000000000 ≤ unitsOf m * scale / one :=
    (Nat.le_div_iff_mul_le one_pos).mpr (le_scale_div_one.trans (Nat.le_mul_of_pos_left _ hunits))
  have hlength : 0 < (Nat.toDigits 10 (unitsOf m * scale / one)).length := Nat.length_toDigits_pos
  have hdigits : ∀ k, 0 < k → ((Nat.toDigits 10 (unitsOf m * scale / one)).length ≤ k ↔
      unitsOf m * scale / one < 10 ^ k) := fun k hk => Nat.length_toDigits_le_iff (by decide) hk
  rw [leadingPlace]
  generalize (Nat.toDigits 10 (unitsOf m * scale / one)).length = length at *
  have hlong : 16 < length := by
    refine Nat.lt_of_not_le fun hle => ?_
    have := (hdigits 16 (by decide)).mp hle
    omega
  refine ⟨by omega, (Nat.le_div_iff_mul_le one_pos).mp ?_⟩
  exact Nat.le_of_not_lt fun hlt => by
    have := (hdigits (length - 1) (by omega)).mpr hlt
    omega

theorem digitsAt?_seventeenth (rule : HalfwayRule) (h : 0 < m) :
    (digitsAt? rule m (leadingPlace m - 16)).isSome = true := by
  obtain ⟨htop, hsize⟩ := leadingPlace_spec h
  refine digitsAt?_of_fine rule h ?_
  obtain ⟨place, hplace⟩ := Nat.exists_eq_add_of_le' htop
  have hpower : Nat.pow 10 (leadingPlace m) = 10000000000000000 * Nat.pow 10 place := by
    rw [hplace, Nat.pow_eq, Nat.pow_eq, Nat.pow_add]
    omega
  rw [hplace, Nat.add_sub_cancel, placeSize_eq]
  rw [hpower] at hsize
  refine Nat.lt_of_mul_lt_mul_left (a := 10000000000000000) ?_
  calc 10000000000000000 * (2 * (Nat.pow 10 place * one))
      = 2 * (10000000000000000 * Nat.pow 10 place * one) := by ring
    _ ≤ 2 * (unitsOf m * scale) := Nat.mul_le_mul_left 2 hsize
    _ = 2 * unitsOf m * scale := by ring
    _ < 10000000000000000 * (unitsOf (m + 1) - unitsOf (m - 1)) * scale :=
      Nat.mul_lt_mul_of_pos_right (two_mul_unitsOf_lt h) scale_pos
    _ = _ := by ring

/-- The shortest digits of a number read back. -/
theorem readsBack_shortest (rule : HalfwayRule) (h : 0 < m) :
    readsBack m (shortest rule m).2 (shortest rule m).1 = true := by
  have hsome : ((List.range 17).findSome? fun i =>
      (digitsAt? rule m (leadingPlace m - i)).map (·, leadingPlace m - i)).isSome = true := by
    rw [List.findSome?_isSome_iff]
    exact ⟨16, by simp, by simpa using digitsAt?_seventeenth rule h⟩
  obtain ⟨found, hfound⟩ := Option.isSome_iff_exists.mp hsome
  obtain ⟨i, -, hi⟩ := List.exists_of_findSome?_eq_some hfound
  obtain ⟨digits, hdigits, rfl⟩ := Option.map_eq_some_iff.mp hi
  rw [shortest, hfound, Option.getD_some]
  exact readsBack_of_digitsAt? hdigits

-- ---------------------------------------------------------------------------
-- Reading a decimal
-- ---------------------------------------------------------------------------

theorem lt_pow_length (digits : Nat) : digits < 10 ^ (Nat.toDigits 10 digits).length :=
  (Nat.length_toDigits_le_iff (by decide) Nat.length_toDigits_pos).mp (Nat.le_refl _)

theorem pow_length_le (h : 0 < digits) : 10 ^ ((Nat.toDigits 10 digits).length - 1) ≤ digits := by
  by_cases hone : (Nat.toDigits 10 digits).length - 1 = 0
  · rw [hone]
    exact h
  · refine Nat.le_of_not_lt fun hlt => ?_
    have := (Nat.length_toDigits_le_iff (by decide) (Nat.pos_of_ne_zero hone)).mpr hlt
    omega

theorem two_one_lt (hk : k = 331) : 2 * one < 10 ^ k := by
  subst hk
  decide +kernel

theorem unitsOf_infinity_lt (hk : k = 310) : unitsOf infinity < 10 ^ k * one := by
  subst hk
  decide +kernel

theorem pow_mul_scale (n : Nat) (hk : k = 340) : 10 ^ n * scale = 10 ^ (n + k) := by
  unfold scale
  rw [← hk]
  exact (Nat.pow_add 10 n k).symm

theorem places_ge (h : 0 < m) (hr : Rounds m (digits * Nat.pow 10 e.toNat * one) (Nat.pow 10 (-e).toNat)) :
    -330 ≤ ((Nat.toDigits 10 digits).length : Int) + e := by
  refine Int.not_lt.mp fun hsmall => ?_
  have hunits : 0 < unitsOf m := unitsOf_zero ▸ unitsOf_strictMono h
  have hdigits := lt_pow_length digits
  generalize (Nat.toDigits 10 digits).length = length at *
  obtain ⟨k, hk⟩ : ∃ k, k = 331 := ⟨_, rfl⟩
  have hzero : e.toNat = 0 := by omega
  have hden : 10 ^ k * 10 ^ length ≤ Nat.pow 10 (-e).toNat := by
    rw [← Nat.pow_add]
    exact Nat.pow_le_pow_right (by decide) (by omega)
  -- what does not round to zero is at least half the least float
  have hlow : Nat.pow 10 (-e).toNat ≤ 2 * (digits * one) := by
    have := hr.1
    rw [hzero, show Nat.pow 10 0 = 1 from rfl, Nat.mul_one] at this
    exact (Nat.le_mul_of_pos_left _ (by omega)).trans this
  have hbound : 10 ^ k * 10 ^ length < 10 ^ k * 10 ^ length := by
    calc 10 ^ k * 10 ^ length ≤ 2 * (digits * one) := hden.trans hlow
      _ = 2 * one * digits := by ring
      _ ≤ 2 * one * 10 ^ length := Nat.mul_le_mul_left _ (Nat.le_of_lt hdigits)
      _ < 10 ^ k * 10 ^ length := Nat.mul_lt_mul_of_pos_right (two_one_lt hk) (pow_ten_pos length)
  exact Nat.lt_irrefl _ hbound

theorem places_le (hd : 0 < digits) (hm : m < infinity)
    (hr : Rounds m (digits * Nat.pow 10 e.toNat * one) (Nat.pow 10 (-e).toNat)) :
    ((Nat.toDigits 10 digits).length : Int) + e ≤ 310 := by
  refine Int.not_lt.mp fun hlarge => ?_
  have hdigits := pow_length_le hd
  have hpos : 0 < (Nat.toDigits 10 digits).length := Nat.length_toDigits_pos
  generalize (Nat.toDigits 10 digits).length = length at *
  -- what rounds to a finite number does not exceed infinity
  have hhigh : 2 * (digits * Nat.pow 10 e.toNat * one) ≤
      2 * (unitsOf infinity * Nat.pow 10 (-e).toNat) := by
    have hm' : unitsOf m ≤ unitsOf infinity := unitsOf_strictMono.monotone (Nat.le_of_lt hm)
    have hnext : unitsOf (m + 1) ≤ unitsOf infinity := unitsOf_strictMono.monotone hm
    refine hr.2.1.trans ?_
    rw [← Nat.mul_assoc]
    exact Nat.mul_le_mul_right _ (by omega)
  obtain ⟨k, hk⟩ : ∃ k, k = 310 := ⟨_, rfl⟩
  have hpower : 10 ^ k * Nat.pow 10 (-e).toNat ≤ digits * Nat.pow 10 e.toNat := by
    refine Nat.le_trans ?_ (Nat.mul_le_mul_right _ hdigits)
    rw [Nat.pow_eq, Nat.pow_eq, ← Nat.pow_add, ← Nat.pow_add]
    exact Nat.pow_le_pow_right (by decide) (by omega)
  have hbound : unitsOf infinity * Nat.pow 10 (-e).toNat < unitsOf infinity * Nat.pow 10 (-e).toNat := by
    calc unitsOf infinity * Nat.pow 10 (-e).toNat
        < 10 ^ k * one * Nat.pow 10 (-e).toNat :=
          Nat.mul_lt_mul_of_pos_right (unitsOf_infinity_lt hk) (pow_ten_pos _)
      _ = 10 ^ k * Nat.pow 10 (-e).toNat * one := by ring
      _ ≤ digits * Nat.pow 10 e.toNat * one := Nat.mul_le_mul_right _ hpower
      _ ≤ unitsOf infinity * Nat.pow 10 (-e).toNat := Nat.le_of_mul_le_mul_left hhigh (by decide)
  exact Nat.lt_irrefl _ hbound

/-- A decimal among the reals that round to a number is read as that number. -/
theorem ofDecimal_of_rounds (negative : Bool) (hd : 0 < digits) (h : 0 < m) (hm : m < infinity)
    (hr : Rounds m (digits * Nat.pow 10 e.toNat * one) (Nat.pow 10 (-e).toNat)) :
    ofDecimal negative digits e = ofMagnitude negative m := by
  have hge := places_ge h hr
  have hle := places_le hd hm hr
  have hzero : (digits == 0) = false := by simp; omega
  simp only [ofDecimal, hzero, Bool.false_or, decide_eq_true_eq]
  rw [if_neg (by omega), if_neg (by omega), ofRatio,
    magnitudeOfUnits_of_rounds (pow_ten_pos _) hr hm]

theorem ofDecimal_of_readsBack {e : Int} {j k : Nat} (negative : Bool) (h : 0 < m) (hm : m < infinity)
    (hr : readsBack m place (digits * 10 ^ j) = true) (he : e + k = place - 340 + j) :
    ofDecimal negative (digits * 10 ^ k) e = ofMagnitude negative m := by
  have hpos : 0 < digits := Nat.pos_of_mul_pos_right (pos_of_readsBack h hr)
  refine ofDecimal_of_rounds negative (Nat.mul_pos hpos (pow_ten_pos k)) h hm
    ((readsBack_iff.mp hr).of_eq scale_pos (pow_ten_pos _) ?_)
  obtain ⟨last, hlast⟩ : ∃ last, last = 340 := ⟨_, rfl⟩
  have hexp : 10 ^ j * 10 ^ place * 10 ^ (-e).toNat = 10 ^ k * 10 ^ e.toNat * scale := by
    rw [← Nat.pow_add, ← Nat.pow_add, ← Nat.pow_add, pow_mul_scale _ hlast]
    congr 1
    omega
  rw [Nat.pow_eq, Nat.pow_eq, Nat.pow_eq]
  calc digits * 10 ^ j * (10 ^ place * one) * 10 ^ (-e).toNat
      = digits * one * (10 ^ j * 10 ^ place * 10 ^ (-e).toNat) := by ring
    _ = digits * one * (10 ^ k * 10 ^ e.toNat * scale) := by rw [hexp]
    _ = digits * 10 ^ k * 10 ^ e.toNat * one * scale := by ring

end Binary64

end Positional
