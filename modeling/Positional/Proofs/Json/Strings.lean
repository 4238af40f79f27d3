import Positional.Json.Printer
import Positional.Json.Token

/-!
# Strings in JSON texts

A string is read back from its printed form: every character, escaped or not, spells its own code,
and the quote that ends the string is the only one that is not escaped.
-/

namespace Positional

namespace Json

theorem hexDigit?_digitChar : ∀ n < 16, hexDigit? (Nat.digitChar n) = some n ∧
    Nat.digitChar n ≠ '"' ∧ Nat.digitChar n ≠ '\\' := by decide

/-- A character stands for itself, behind a backslash for another one, or by its code. -/
theorem escapeChar_cases (c : Char) :
    (escapeChar c = [c] ∧ 32 ≤ c.toNat ∧ c ≠ '"' ∧ c ≠ '\\') ∨
    (∃ letter, escapeChar c = ['\\', letter] ∧ simpleEscape? letter = some c ∧ letter ≠ 'u') ∨
    ∃ a b, escapeChar c = ['\\', 'u', '0', '0', a, b] ∧ hex4? '0' '0' a b = some c.toNat ∧
      (a ≠ '"' ∧ a ≠ '\\') ∧ b ≠ '"' ∧ b ≠ '\\' := by
  unfold escapeChar
  split
  · exact .inr (.inl ⟨_, rfl, rfl, by decide⟩)
  · exact .inr (.inl ⟨_, rfl, rfl, by decide⟩)
  · exact .inr (.inl ⟨_, rfl, rfl, by decide⟩)
  · exact .inr (.inl ⟨_, rfl, rfl, by decide⟩)
  · exact .inr (.inl ⟨_, rfl, rfl, by decide⟩)
  · exact .inr (.inl ⟨_, rfl, rfl, by decide⟩)
  · exact .inr (.inl ⟨_, rfl, rfl, by decide⟩)
  · rename_i hquote hbackslash _ _ _ _ _
    split
    · rename_i hcontrol
      obtain ⟨hhigh, hhigh'⟩ := hexDigit?_digitChar (c.toNat / 16) (by omega)
      obtain ⟨hlow, hlow'⟩ := hexDigit?_digitChar (c.toNat % 16) (Nat.mod_lt _ (by decide))
      have hzero : hexDigit? '0' = some 0 := rfl
      refine .inr (.inr ⟨_, _, rfl, ?_, hhigh', hlow'⟩)
      simp only [hex4?, hzero, hhigh, hlow, bind, Option.bind_some, pure, Option.some.injEq]
      omega
    · exact .inl ⟨rfl, by omega, hquote, hbackslash⟩

theorem codes?_escapeChar (c : Char) (rest : List Char) :
    codes? (escapeChar c ++ rest) = (codes? rest).map (c.toNat :: ·) := by
  rcases escapeChar_cases c with ⟨he, hc, -, hbackslash⟩ | ⟨letter, he, hl, hu⟩ | ⟨a, b, he, hh, -⟩
  · have hcontrol : ¬ c.toNat < 32 := by omega
    rw [he, List.singleton_append]
    cases hr : codes? rest <;> simp [codes?, hbackslash, hcontrol, hr]
  · rw [he]
    cases hr : codes? rest <;> simp [codes?, hl, hu, hr]
  · rw [he]
    cases hr : codes? rest <;> simp [codes?, hh, hr]

theorem codes?_escaped (text : List Char) :
    codes? (text.flatMap escapeChar) = some (text.map Char.toNat) := by
  induction text with
  | nil => rfl
  | cons c rest ih => rw [List.flatMap_cons, codes?_escapeChar, ih, Option.map_some, List.map_cons]

theorem not_surrogate (c : Char) : isHighSurrogate c.toNat = false ∧ isLowSurrogate c.toNat = false := by
  have hvalid : c.toNat < 55296 ∨ 57343 < c.toNat ∧ c.toNat < 1114112 := c.valid
  simp only [isHighSurrogate, isLowSurrogate, Bool.and_eq_false_iff, decide_eq_false_iff_not]
  omega

theorem joinSurrogates?_codes (text : List Char) :
    joinSurrogates? (text.map Char.toNat) = some text := by
  induction text with
  | nil => rfl
  | cons c rest ih =>
    obtain ⟨hhigh, hlow⟩ := not_surrogate c
    cases rest with
    | nil => simp [joinSurrogates?, hhigh, hlow, Char.ofNat_toNat]
    | cons d rest =>
      rw [List.map_cons] at ih
      rw [List.map_cons, List.map_cons, joinSurrogates?, hhigh, hlow, ih]
      simp [Char.ofNat_toNat]

theorem unescape?_escaped (text : List Char) : unescape? (text.flatMap escapeChar) = some text := by
  rw [unescape?, codes?_escaped, Option.bind_some, joinSurrogates?_codes]

-- ---------------------------------------------------------------------------
-- Scanning
-- ---------------------------------------------------------------------------

namespace Scan

variable {found : List Token} {read : List Char}

def run (reader : FloatReader) (scan : Scan) (text : List Char) : Option (List Token) :=
  (text.foldlM (step reader) scan).bind (finish reader)

theorem run_cons (h : scan.step reader c = some next) (rest : List Char) :
    run reader scan (c :: rest) = run reader next rest := by
  rw [run, List.foldlM_cons, h]
  rfl

theorem run_plain (h : c ≠ '"') (h' : c ≠ '\\') (rest : List Char) :
    run reader ⟨found, .string read false⟩ (c :: rest) = run reader ⟨found, .string (c :: read) false⟩ rest :=
  run_cons (by simp [step, h, h']) rest

theorem run_backslash (c : Char) (rest : List Char) : run reader ⟨found, .string read false⟩ ('\\' :: c :: rest)
    = run reader ⟨found, .string (c :: '\\' :: read) false⟩ rest :=
  (run_cons rfl _).trans (run_cons rfl rest)

/-- Inside a string, a character's printed form goes by without ending it. -/
theorem run_escapeChar (c : Char) (rest : List Char) :
    run reader ⟨found, .string read false⟩ (escapeChar c ++ rest)
      = run reader ⟨found, .string ((escapeChar c).reverse ++ read) false⟩ rest := by
  rcases escapeChar_cases c with ⟨he, -, hq, hb⟩ | ⟨letter, he, -⟩ | ⟨a, b, he, -, ⟨hqa, hba⟩, hqb, hbb⟩
  · rw [he]
    exact run_plain hq hb rest
  · rw [he]
    exact run_backslash letter rest
  · rw [he]
    simp only [List.cons_append, List.nil_append]
    rw [run_backslash, run_plain (by decide) (by decide), run_plain (by decide) (by decide),
      run_plain hqa hba, run_plain hqb hbb]
    rfl

theorem run_escaped (text rest : List Char) :
    run reader ⟨found, .string read false⟩ (text.flatMap escapeChar ++ rest)
      = run reader ⟨found, .string ((text.flatMap escapeChar).reverse ++ read) false⟩ rest := by
  induction text generalizing read with
  | nil => rfl
  | cons c more ih =>
    rw [List.flatMap_cons, List.append_assoc, run_escapeChar, ih, List.reverse_append,
      List.append_assoc]

theorem run_printString (text : String) (rest : List Char) :
    run reader ⟨found, .none⟩ (printString text ++ rest) = run reader ⟨.string text :: found, .none⟩ rest := by
  have hopen : step reader ⟨found, .none⟩ '"' = some ⟨found, .string [] false⟩ := rfl
  have hclose : step reader ⟨found, .string (text.toList.flatMap escapeChar).reverse false⟩ '"'
      = some ⟨.string text :: found, .none⟩ := by
    simp [step, List.reverse_reverse, unescape?_escaped, String.ofList_toList]
  rw [printString, List.cons_append, List.cons_append, List.append_assoc, run_cons hopen, run_escaped,
    List.append_nil]
  exact run_cons hclose rest

end Scan

end Json

end Positional
