import Mathlib.Data.List.TakeWhile
import Positional.Json.Printer
import Positional.Json.Token
import Positional.Proofs.Binary64.Decimal

/-!
# Numbers in JSON texts

Every integer of 64 bits is read back from its text (`ofBare?_printInteger`). So is every finite
float by a reader that takes the nearest (`rereads_nearest`): a float's text is one of four forms of
its shortest digits, with or without an exponent, and each form spells the same decimal.
-/

namespace Positional

-- ---------------------------------------------------------------------------
-- Digits
-- ---------------------------------------------------------------------------

theorem isDigit_toDigits (n : Nat) : ∀ c ∈ Nat.toDigits 10 n, c.isDigit = true :=
  fun _ hc => Nat.isDigit_of_mem_toDigits (by decide) (by decide) hc

theorem isDigit_zeros (count : Nat) : ∀ c ∈ zeros count, c.isDigit = true := by
  intro c hc
  rw [List.eq_of_mem_replicate hc]
  rfl

/-- Only zero begins with a zero. -/
theorem head_toDigits (h : 0 < n) : (Nat.toDigits 10 n).head? ≠ some '0' := by
  induction n using Nat.strongRecOn with
  | ind n ih =>
    by_cases hlt : n < 10
    · rw [Nat.toDigits_of_lt_base hlt, List.head?_cons, ne_eq, Option.some.injEq, Nat.digitChar_eq_zero]
      omega
    · rw [Nat.toDigits_of_base_le (by decide) (by omega), List.head?_append]
      have hhead := ih (n / 10) (by omega) (by omega)
      cases hd : (Nat.toDigits 10 (n / 10)).head? with
      | none => exact absurd (List.head?_eq_none_iff.mp hd) Nat.toDigits_ne_nil
      | some c => simpa [hd] using hhead

theorem ofDigitChars_zeros (digits : List Char) (count : Nat) :
    Nat.ofDigitChars 10 (digits ++ zeros count) 0 = Nat.ofDigitChars 10 digits 0 * 10 ^ count := by
  rw [Nat.ofDigitChars_append, zeros, Nat.ofDigitChars_replicate_zero, Nat.mul_comm]

theorem ofDigitChars_zeros_append (digits : List Char) (count : Nat) :
    Nat.ofDigitChars 10 (zeros count ++ digits) 0 = Nat.ofDigitChars 10 digits 0 := by
  rw [Nat.ofDigitChars_append, zeros, Nat.ofDigitChars_replicate_zero, Nat.mul_zero]

structure Significant (digits : List Char) : Prop where
  isDigit : ∀ c ∈ digits, c.isDigit = true
  nonempty : digits ≠ []
  head : digits.head? ≠ some '0'

theorem significant_toDigits (h : 0 < n) : Significant (Nat.toDigits 10 n) :=
  ⟨isDigit_toDigits n, Nat.toDigits_ne_nil, head_toDigits h⟩

theorem Significant.append {digits more : List Char} (h : Significant digits)
    (hm : ∀ c ∈ more, c.isDigit = true) : Significant (digits ++ more) where
  isDigit c hc := (List.mem_append.mp hc).elim (h.isDigit c) (hm c)
  nonempty := by simp [h.nonempty]
  head := by
    cases digits with
    | nil => exact absurd rfl h.nonempty
    | cons c rest => exact h.head

/-- Without the zeros at their end, digits are still significant. -/
theorem exists_trimmed {text : List Char} (h : Significant text) :
    ∃ digits count, (text.reverse.dropWhile (· == '0')).reverse = digits ∧
      text = digits ++ zeros count ∧ Significant digits := by
  have hsplit : text = (text.reverse.dropWhile (· == '0')).reverse
      ++ zeros (text.reverse.takeWhile (· == '0')).length := by
    have hzeros : text.reverse.takeWhile (· == '0') = zeros (text.reverse.takeWhile (· == '0')).length :=
      List.eq_replicate_of_mem fun c hc => by simpa using List.mem_takeWhile_imp hc
    have hall := congrArg List.reverse
      (List.takeWhile_append_dropWhile (p := (· == '0')) (l := text.reverse))
    rw [List.reverse_append, List.reverse_reverse, hzeros, zeros, List.reverse_replicate] at hall
    exact hall.symm
  refine ⟨_, _, rfl, hsplit, ?_⟩
  generalize (text.reverse.dropWhile (· == '0')).reverse = digits at *
  have hne : digits ≠ [] := by
    rintro rfl
    cases hcount : (text.reverse.takeWhile (· == '0')).length with
    | zero =>
      rw [hcount] at hsplit
      exact h.nonempty hsplit
    | succ count =>
      rw [hcount] at hsplit
      exact h.head (by rw [hsplit]; rfl)
  refine ⟨fun c hc => h.isDigit c (by rw [hsplit]; exact List.mem_append_left _ hc), hne, ?_⟩
  cases digits with
  | nil => exact absurd rfl hne
  | cons c rest =>
    have hhead := h.head
    rwa [hsplit] at hhead

namespace Json

-- ---------------------------------------------------------------------------
-- The forms of numbers
-- ---------------------------------------------------------------------------

def NoDigit (text : List Char) : Prop := ∀ c, text.head? = some c → c.isDigit = false

theorem noDigit_nil : NoDigit [] := fun _ hc => by cases hc

theorem takeWhile_digits {digits rest : List Char} (hd : ∀ c ∈ digits, c.isDigit = true)
    (hr : NoDigit rest) : (digits ++ rest).takeWhile Char.isDigit = digits ∧
      (digits ++ rest).dropWhile Char.isDigit = rest := by
  rw [List.takeWhile_append_of_pos hd, List.dropWhile_append_of_pos hd]
  cases rest with
  | nil => exact ⟨List.append_nil _, rfl⟩
  | cons c rest => simp [hr c rfl]

/-- Digits of a whole number: without a leading zero, unless they are the zero alone. -/
structure IsWhole (whole : List Char) : Prop where
  isDigit : ∀ c ∈ whole, c.isDigit = true
  nonempty : whole ≠ []
  lead : 1 < whole.length → whole.head? ≠ some '0'

theorem isWhole_significant {digits : List Char} (h : Significant digits) : IsWhole digits :=
  ⟨h.isDigit, h.nonempty, fun _ => h.head⟩

theorem isWhole_zero : IsWhole ['0'] :=
  ⟨by simp, by simp, by simp⟩

theorem isWhole_toDigits (n : Nat) : IsWhole (Nat.toDigits 10 n) := by
  rcases Nat.eq_zero_or_pos n with rfl | h
  · exact isWhole_zero
  · exact isWhole_significant (significant_toDigits h)

variable {reader : FloatReader}

section

variable {whole rest : List Char} (h : IsWhole whole) (hr : NoDigit rest)
include h hr

theorem unsigned?_eq (negative : Bool) : unsigned? reader negative (whole ++ rest) =
    if rest.isEmpty then ofWhole? reader negative whole
    else (fraction? rest).bind fun parts => (exponent? parts.2).bind fun exponent =>
      finite? reader ⟨negative, whole, parts.1, exponent⟩ := by
  obtain ⟨htake, hdrop⟩ := takeWhile_digits h.isDigit hr
  have hlead : (whole.isEmpty || (decide (1 < whole.length) && whole.head? == some '0')) = false := by
    have := h.lead
    simp [h.nonempty]
    exact this
  simp only [unsigned?, htake, hdrop, hlead, Bool.false_eq_true, if_false]
  rfl

end

theorem unsigned?_whole (h : IsWhole whole) (negative : Bool) :
    unsigned? reader negative whole = ofWhole? reader negative whole := by
  have heq := @unsigned?_eq reader _ _ h noDigit_nil negative
  rwa [List.append_nil] at heq

theorem unsigned?_fraction (reader : FloatReader) (h : IsWhole whole) (hf : ∀ c ∈ fraction, c.isDigit = true)
    (hne : fraction ≠ []) (ht : NoDigit tail) (he : exponent? tail = some e) (negative : Bool) :
    unsigned? reader negative (whole ++ '.' :: (fraction ++ tail)) =
      finite? reader ⟨negative, whole, fraction, e⟩ := by
  obtain ⟨htake, hdrop⟩ := takeWhile_digits hf ht
  have hfraction : fraction? ('.' :: (fraction ++ tail)) = some (fraction, tail) := by
    cases fraction with
    | nil => exact absurd rfl hne
    | cons c more => simp only [fraction?, htake, hdrop]
  rw [unsigned?_eq h (by intro c hc; cases hc; rfl) negative, hfraction, Option.bind_some, he]
  rfl

theorem unsigned?_exponent (reader : FloatReader) (h : IsWhole whole) (he : exponent? ('e' :: tail) = some e)
    (negative : Bool) : unsigned? reader negative (whole ++ 'e' :: tail) =
      finite? reader ⟨negative, whole, [], e⟩ := by
  have hfraction : fraction? ('e' :: tail) = some ([], 'e' :: tail) := rfl
  rw [unsigned?_eq h (by intro c hc; cases hc; rfl) negative, hfraction, Option.bind_some, he]
  rfl

theorem exponent?_digits {digits : List Char} (hd : ∀ c ∈ digits, c.isDigit = true) (hne : digits ≠ []) :
    exponent? ('e' :: '-' :: digits) = some (signed true (Nat.ofDigitChars 10 digits 0)) ∧
    exponent? ('e' :: '+' :: digits) = some (signed false (Nat.ofDigitChars 10 digits 0)) ∧
    exponent? ('e' :: digits) = some (signed false (Nat.ofDigitChars 10 digits 0)) := by
  have hall : digits.all Char.isDigit = true := List.all_eq_true.mpr hd
  refine ⟨by simp [exponent?, hne, hall], by simp [exponent?, hne, hall], ?_⟩
  cases digits with
  | nil => exact absurd rfl hne
  | cons c rest =>
    have hc := hd c (List.mem_cons_self ..)
    have hminus : c ≠ '-' := fun h => by simp [h] at hc
    have hplus : c ≠ '+' := fun h => by simp [h] at hc
    have hsigned : exponent? ('e' :: c :: rest) =
        if (c :: rest).all Char.isDigit then
          some (signed false (Nat.ofDigitChars 10 (c :: rest) 0)) else none := by
      simp [exponent?, hminus, hplus]
    rw [hsigned, if_pos hall]

theorem exponent?_printed (plus : Bool) (e : Int) :
    exponent? ('e' :: (if e < 0 then ['-'] else if plus then ['+'] else []) ++ Nat.toDigits 10 e.natAbs)
      = some e := by
  obtain ⟨hminus, hplus, hnone⟩ := exponent?_digits (isDigit_toDigits e.natAbs) Nat.toDigits_ne_nil
  rw [Nat.ofDigitChars_ten_toDigits] at hminus hplus hnone
  by_cases h : e < 0
  · rw [if_pos h]
    exact hminus.trans (congrArg some (by rw [signed, if_pos rfl]; omega))
  · rw [if_neg h]
    have hsize : signed false e.natAbs = e := by rw [signed, if_neg Bool.false_ne_true]; omega
    cases plus with
    | true => exact hplus.trans (congrArg some hsize)
    | false => exact hnone.trans (congrArg some hsize)

-- ---------------------------------------------------------------------------
-- Floats
-- ---------------------------------------------------------------------------

theorem finite?_ofMagnitude {numeral : Numeral} (hm : m < Binary64.infinity)
    (h : reader numeral = some (.ofMagnitude negative m)) :
    finite? reader numeral = some (float (.ofMagnitude negative m)) := by
  have hbit : Binary64.infinity < Binary64.signBit := by decide
  have hfinite : (Binary64.ofMagnitude negative m).isFinite = true := by
    rw [Binary64.isFinite, (Binary64.ofMagnitude_magnitude negative (hm.trans hbit)).1]
    exact decide_eq_true hm
  rw [finite?, h, Option.filter_some, if_pos hfinite, Option.map_some]

/-- A spelling of shortest digits, with `k` more zeros and an exponent to match. -/
theorem finite?_spelling {whole fraction : List Char} {e : Int} {j k : Nat} (negative : Bool) (h : 0 < m)
    (hm : m < Binary64.infinity) (hr : Binary64.readsBack m place (digits * 10 ^ j) = true)
    (hs : Nat.ofDigitChars 10 (whole ++ fraction) 0 = digits * 10 ^ k)
    (he : e - fraction.length + k = place - 340 + j) :
    finite? .nearest ⟨negative, whole, fraction, e⟩ = some (float (.ofMagnitude negative m)) := by
  refine finite?_ofMagnitude hm (congrArg some ?_)
  rw [hs]
  exact Binary64.ofDecimal_of_readsBack negative h hm hr he

section

variable {digits : List Char} {exponent : Int} {j : Nat} (hd : Significant digits)
  (h : 0 < m) (hm : m < Binary64.infinity)
  (hr : Binary64.readsBack m place (Nat.ofDigitChars 10 digits 0 * 10 ^ j) = true)
  (he : exponent + 1 - digits.length = (place : Int) - 340 + j)
include hd h hm hr he

theorem read_belowOne (hneg : exponent < 0) (negative : Bool) :
    unsigned? .nearest negative ('0' :: '.' :: (zeros (-exponent - 1).toNat ++ digits))
      = some (float (.ofMagnitude negative m)) := by
  have hfraction : ∀ c ∈ zeros (-exponent - 1).toNat ++ digits, c.isDigit = true := fun c hc =>
    (List.mem_append.mp hc).elim (isDigit_zeros _ c) (hd.isDigit c)
  have hread := unsigned?_fraction .nearest isWhole_zero hfraction (by simp [hd.nonempty]) noDigit_nil rfl negative
  rw [List.append_nil] at hread
  refine hread.trans (finite?_spelling negative h hm hr (k := 0) ?_ ?_)
  · exact (ofDigitChars_zeros_append (zeros _ ++ digits) 1).trans
      ((ofDigitChars_zeros_append ..).trans (Nat.mul_one _).symm)
  · rw [List.length_append, zeros, List.length_replicate]
    omega

theorem read_paddedWhole (hneg : ¬ exponent < 0) (hshort : digits.length ≤ exponent.toNat + 1)
    (negative : Bool) :
    unsigned? .nearest negative (digits ++ zeros (exponent.toNat + 1 - digits.length) ++ ['.', '0'])
      = some (float (.ofMagnitude negative m)) := by
  have hwhole := isWhole_significant (hd.append (isDigit_zeros (exponent.toNat + 1 - digits.length)))
  have hzero : ∀ c ∈ ['0'], c.isDigit = true := by simp
  have hread := unsigned?_fraction .nearest hwhole hzero (by simp) noDigit_nil rfl negative
  refine hread.trans (finite?_spelling negative h hm hr
    (k := exponent.toNat + 1 - digits.length + 1) ?_ ?_)
  · have hzeros : zeros (exponent.toNat + 1 - digits.length) ++ ['0']
        = zeros (exponent.toNat + 1 - digits.length + 1) := (List.replicate_succ' ..).symm
    rw [List.append_assoc, hzeros, ofDigitChars_zeros]
  · simp only [List.length_singleton]
    omega

theorem read_pointAmong (hneg : ¬ exponent < 0) (hlong : ¬ digits.length ≤ exponent.toNat + 1)
    (negative : Bool) :
    unsigned? .nearest negative (digits.take (exponent.toNat + 1) ++ '.' :: digits.drop (exponent.toNat + 1))
      = some (float (.ofMagnitude negative m)) := by
  have htake : Significant (digits.take (exponent.toNat + 1)) := by
    refine ⟨fun c hc => hd.isDigit c (List.mem_of_mem_take hc), by simp [hd.nonempty], ?_⟩
    rw [List.head?_take, if_neg (by omega)]
    exact hd.head
  have hdrop : ∀ c ∈ digits.drop (exponent.toNat + 1), c.isDigit = true :=
    fun c hc => hd.isDigit c (List.mem_of_mem_drop hc)
  have hne : digits.drop (exponent.toNat + 1) ≠ [] := by simp; omega
  have hread := unsigned?_fraction .nearest (isWhole_significant htake) hdrop hne noDigit_nil rfl negative
  rw [List.append_nil] at hread
  refine hread.trans (finite?_spelling negative h hm hr (k := 0) ?_ ?_)
  · rw [List.take_append_drop, Nat.pow_zero, Nat.mul_one]
  rw [List.length_drop]
  omega

theorem read_plainDecimal (negative : Bool) :
    unsigned? .nearest negative (plainDecimal digits exponent) = some (float (.ofMagnitude negative m)) := by
  rw [plainDecimal]
  by_cases hneg : exponent < 0
  · rw [if_pos hneg]
    exact read_belowOne hd h hm hr he hneg negative
  rw [if_neg hneg]
  by_cases hshort : digits.length ≤ exponent.toNat + 1
  · simp only [hshort, if_true]
    exact read_paddedWhole hd h hm hr he hneg hshort negative
  · simp only [hshort, if_false]
    exact read_pointAmong hd h hm hr he hneg hshort negative

theorem read_scientificDecimal (plus negative : Bool) :
    unsigned? .nearest negative (scientificDecimal plus digits exponent)
      = some (float (.ofMagnitude negative m)) := by
  have hexponent := exponent?_printed plus exponent
  rw [List.cons_append] at hexponent
  rcases digits with _ | ⟨first, _ | ⟨second, rest⟩⟩
  · exact absurd rfl hd.nonempty
  · have hread := unsigned?_exponent .nearest (isWhole_significant hd) hexponent negative
    have hform : scientificDecimal plus [first] exponent = [first] ++ 'e' ::
        ((if exponent < 0 then ['-'] else if plus then ['+'] else [])
          ++ Nat.toDigits 10 exponent.natAbs) := by simp [scientificDecimal]
    rw [hform, hread]
    refine finite?_spelling negative h hm hr (k := 0) (Nat.mul_one _).symm ?_
    simp only [List.length_singleton, List.length_nil] at he ⊢
    omega
  · have hfirst : Significant [first] := by
      refine ⟨by simpa using hd.isDigit first (List.mem_cons_self ..), by simp, ?_⟩
      simpa using hd.head
    have hread := unsigned?_fraction .nearest (isWhole_significant hfirst)
      (fun c hc => hd.isDigit c (List.mem_cons_of_mem _ hc)) (by simp)
      (fun c hc => by cases hc; rfl) hexponent negative
    have hform : scientificDecimal plus (first :: second :: rest) exponent = [first] ++ '.' ::
        (second :: rest ++ 'e' :: ((if exponent < 0 then ['-'] else if plus then ['+'] else [])
          ++ Nat.toDigits 10 exponent.natAbs)) := by simp [scientificDecimal]
    rw [hform, hread]
    refine finite?_spelling negative h hm hr (k := 0) (Nat.mul_one _).symm ?_
    simp only [List.length_cons] at he ⊢
    omega

end

theorem unsigned?_positiveText (layout : FloatLayout) (negative : Bool) (h : 0 < m)
    (hm : m < Binary64.infinity) :
    unsigned? .nearest negative (layout.positiveText m) = some (float (.ofMagnitude negative m)) := by
  have hr := Binary64.readsBack_shortest layout.halfway h
  have hpos := Binary64.pos_of_readsBack h hr
  rw [FloatLayout.positiveText]
  generalize Binary64.shortest layout.halfway m = found at *
  obtain ⟨digits, place⟩ := found
  obtain ⟨significant, count, htrim, hsplit, hd⟩ := exists_trimmed (significant_toDigits hpos)
  have hdigits : Nat.ofDigitChars 10 significant 0 * 10 ^ count = digits := by
    rw [← ofDigitChars_zeros, ← hsplit, Nat.ofDigitChars_ten_toDigits]
  have hlength : (Nat.toDigits 10 digits).length = significant.length + count := by
    rw [hsplit, List.length_append, zeros, List.length_replicate]
  rw [← hdigits] at hr
  simp only [htrim, hlength]
  split
  · exact read_plainDecimal hd h hm hr (by omega) negative
  · exact read_scientificDecimal hd h hm hr (by omega) layout.plus negative

theorem unsigned?_zero (negative : Bool) :
    unsigned? .nearest negative ['0', '.', '0'] = some (float (.ofMagnitude negative 0)) := by
  have hzero : ∀ c ∈ ['0'], c.isDigit = true := by simp
  have hread := unsigned?_fraction .nearest isWhole_zero hzero (by simp) noDigit_nil rfl negative
  exact hread.trans (finite?_ofMagnitude (m := 0) (by decide) rfl)

-- ---------------------------------------------------------------------------
-- Bare lexemes
-- ---------------------------------------------------------------------------

theorem ofBare?_of_unsigned? (h : unsigned? reader false text = some json) :
    ofBare? reader text = some json := by
  unfold ofBare?
  split
  · cases h
  · cases h
  · cases h
  · simp [unsigned?] at h
  · exact h

/-- Every finite float is the nearest to its text, sign of zero included. -/
theorem ofBare?_text (layout : FloatLayout) (hx : x.isFinite = true) :
    ofBare? .nearest (layout.text x) = some (float x) := by
  have hfin : x.magnitude < Binary64.infinity := of_decide_eq_true hx
  have hnan : x.isNaN = false := by
    simp only [Binary64.isNaN, decide_eq_false_iff_not]
    omega
  -- the text without the sign is read under either sign
  have hsize : ∀ negative, unsigned? .nearest negative
      (if x.magnitude == 0 then ['0', '.', '0']
        else if x.isFinite then layout.positiveText x.magnitude else ['i', 'n', 'f'])
      = some (float (.ofMagnitude negative x.magnitude)) := by
    intro negative
    by_cases hzero : x.magnitude = 0
    · rw [hzero]
      exact unsigned?_zero negative
    · rw [if_neg (by simpa using hzero), if_pos hx]
      exact unsigned?_positiveText layout negative (Nat.pos_of_ne_zero hzero) hfin
  have hself := Binary64.ofMagnitude_self x
  rw [FloatLayout.text, hnan, if_neg Bool.false_ne_true]
  cases hneg : x.isNegative with
  | true =>
    rw [hneg] at hself
    simp only [if_true, ofBare?]
    exact (hsize true).trans (by rw [hself])
  | false =>
    rw [hneg] at hself
    simp only [Bool.false_eq_true, if_false]
    exact ofBare?_of_unsigned? ((hsize false).trans (by rw [hself]))

/-- Whether a float is read back from the text that is printed for it. -/
def FloatReader.rereads (reader : FloatReader) (x : Binary64) : Bool :=
  match ofBare? reader (floatLayout.text x) with
  | some (float y) => y == x
  | _ => false

theorem rereads_iff :
    reader.rereads x = true ↔ ofBare? reader (floatLayout.text x) = some (float x) := by
  unfold FloatReader.rereads
  split
  · rename_i hread
    rw [hread, beq_iff_eq, Option.some.injEq, Json.float.injEq]
  · rename_i hother
    simpa using hother x

theorem rereads_nearest (hx : x.isFinite = true) : FloatReader.nearest.rereads x = true :=
  rereads_iff.mpr (ofBare?_text floatLayout hx)

-- a reader that rounds twice misses some
example : FloatReader.scaled.rereads ⟨0x40499fc44f1b2f60⟩ = false := by decide +kernel

def fits64 (n : Int) : Bool := (int64? n).isSome || (uint64? n).isSome

theorem fits64_toInt (n : Int64) : fits64 n.toInt = true := by
  rw [fits64, int64?_eq_some.mpr rfl]
  rfl

theorem fits64_toNat (n : UInt64) : fits64 n.toNat = true := by
  rw [fits64, uint64?_eq_some.mpr rfl, Option.isSome_some, Bool.or_true]

theorem natAbs_lt_of_fits64 (h : fits64 n = true) : n.natAbs < UInt64.size := by
  have hsize : UInt64.size = 18446744073709551616 := rfl
  rcases (Bool.or_eq_true ..).mp h with h | h
  · obtain ⟨k, hk⟩ := Option.isSome_iff_exists.mp h
    have hk := int64?_eq_some.mp hk
    have hlow := k.le_toInt
    have hhigh := k.toInt_lt
    omega
  · obtain ⟨k, hk⟩ := Option.isSome_iff_exists.mp h
    have hk := uint64?_eq_some.mp hk
    have hhigh := k.toNat_lt
    omega

theorem ofBare?_printInteger (h : fits64 n = true) : 
    ofBare? reader (printInteger n) = some (integer n) := by
  cases n with
  | ofNat n =>
    refine ofBare?_of_unsigned? ?_
    have hfits : ((int64? (signed false n)).isSome || (uint64? (signed false n)).isSome) = true := h
    rw [printInteger, unsigned?_whole (isWhole_toDigits n), ofWhole?, Nat.ofDigitChars_ten_toDigits,
      if_neg (by simp), if_pos hfits]
    rfl
  | negSucc k =>
    have hsigned : signed true (k + 1) = Int.negSucc k := rfl
    have hfits : ((int64? (Int.negSucc k)).isSome || (uint64? (Int.negSucc k)).isSome) = true := h
    show unsigned? reader true (Nat.toDigits 10 (k + 1)) = _
    rw [unsigned?_whole (isWhole_toDigits _), ofWhole?, Nat.ofDigitChars_ten_toDigits, hsigned,
      if_neg (by simp), if_pos hfits]

-- ---------------------------------------------------------------------------
-- The characters of numbers
-- ---------------------------------------------------------------------------

theorem isDelimiter_of_isDigit (h : c.isDigit = true) : Scan.isDelimiter c = false := by
  by_contra hd
  have hmem : c ∈ [' ', '\t', '\n', '\r', '"', '[', ']', '\x7b', '\x7d', ',', ':'] := by
    simp only [Bool.not_eq_false, Scan.isDelimiter, isBlank, punctuation?, Bool.or_eq_true,
      beq_iff_eq] at hd
    rcases hd with ((((rfl | rfl) | rfl) | rfl) | rfl) | hd
    all_goals try simp
    split at hd <;> simp at hd ⊢
  have hnone : ∀ c ∈ [' ', '\t', '\n', '\r', '"', '[', ']', '\x7b', '\x7d', ',', ':'],
      c.isDigit = false := by simp [Char.isDigit]
  rw [hnone c hmem] at h
  cases h

theorem exponent?_cons (h : exponent? (mark :: rest) = some e) : (mark = 'e' ∨ mark = 'E') ∧
    ∃ sign digits, rest = sign ++ digits ∧ (∀ c ∈ sign, c = '-' ∨ c = '+') ∧
      ∀ c ∈ digits, c.isDigit = true := by
  have hparts : ∀ {negative : Bool} {digits : List Char},
      (if (mark == 'e' || mark == 'E') && digits != [] && digits.all Char.isDigit then
        some (signed negative (Nat.ofDigitChars 10 digits 0)) else none) = some e →
      (mark = 'e' ∨ mark = 'E') ∧ ∀ c ∈ digits, c.isDigit = true := by
    intro negative digits h
    split at h
    · rename_i hcond
      simp only [Bool.and_eq_true, Bool.or_eq_true, beq_iff_eq, List.all_eq_true] at hcond
      exact ⟨hcond.1.1, hcond.2⟩
    · cases h
  simp only [exponent?] at h
  split at h
  · obtain ⟨hmark, hdigits⟩ := hparts h
    exact ⟨hmark, ['-'], _, rfl, by simp, hdigits⟩
  · obtain ⟨hmark, hdigits⟩ := hparts h
    exact ⟨hmark, ['+'], _, rfl, by simp, hdigits⟩
  · obtain ⟨hmark, hdigits⟩ := hparts h
    exact ⟨hmark, [], _, rfl, by simp, hdigits⟩

theorem isDelimiter_exponent (h : exponent? text = some e) : ∀ c ∈ text, Scan.isDelimiter c = false := by
  cases text with
  | nil => exact fun c hc => absurd hc List.not_mem_nil
  | cons mark rest =>
    obtain ⟨hmark, sign, digits, rfl, hsign, hdigits⟩ := exponent?_cons h
    intro c hc
    rcases List.mem_cons.mp hc with rfl | hc
    · rcases hmark with rfl | rfl <;> rfl
    · rcases List.mem_append.mp hc with hc | hc
      · rcases hsign c hc with rfl | rfl <;> rfl
      · exact isDelimiter_of_isDigit (hdigits c hc)

theorem isDelimiter_fraction (h : fraction? text = some (fraction, tail))
    (ht : ∀ c ∈ tail, Scan.isDelimiter c = false) : ∀ c ∈ text, Scan.isDelimiter c = false := by
  unfold fraction? at h
  split at h
  · rename_i rest
    split at h
    · cases h
    · cases h
      intro c hc
      rcases List.mem_cons.mp hc with rfl | hc
      · rfl
      · rw [← List.takeWhile_append_dropWhile (p := Char.isDigit) (l := rest)] at hc
        rcases List.mem_append.mp hc with hc | hc
        · exact isDelimiter_of_isDigit (List.mem_takeWhile_imp hc)
        · exact ht c hc
  · cases h
    exact ht

theorem isDelimiter_unsigned (h : unsigned? reader negative text = some json) :
    ∀ c ∈ text, Scan.isDelimiter c = false := by
  have hrest : ∀ c ∈ text.dropWhile Char.isDigit, Scan.isDelimiter c = false := by
    simp only [unsigned?] at h
    split at h
    · cases h
    · split at h
      · rename_i hempty
        rw [List.isEmpty_iff.mp hempty]
        exact fun c hc => absurd hc List.not_mem_nil
      · obtain ⟨⟨fraction, tail⟩, hfraction, h⟩ := Option.bind_eq_some_iff.mp h
        obtain ⟨e, hexponent, -⟩ := Option.bind_eq_some_iff.mp h
        exact isDelimiter_fraction hfraction (isDelimiter_exponent hexponent)
  intro c hc
  rw [← List.takeWhile_append_dropWhile (p := Char.isDigit) (l := text)] at hc
  rcases List.mem_append.mp hc with hc | hc
  · exact isDelimiter_of_isDigit (List.mem_takeWhile_imp hc)
  · exact hrest c hc

/-- Nothing in a lexeme that stands for a value ends it. -/
theorem isDelimiter_bare (h : ofBare? reader text = some json) : ∀ c ∈ text, Scan.isDelimiter c = false := by
  have hword : ∀ word : List Char, word.all (!Scan.isDelimiter ·) = true →
      ∀ c ∈ word, Scan.isDelimiter c = false := by simp
  unfold ofBare? at h
  split at h
  · exact hword _ rfl
  · exact hword _ rfl
  · exact hword _ rfl
  · intro c hc
    rcases List.mem_cons.mp hc with rfl | hc
    · rfl
    · exact isDelimiter_unsigned h c hc
  · exact isDelimiter_unsigned h

end Json

end Positional
