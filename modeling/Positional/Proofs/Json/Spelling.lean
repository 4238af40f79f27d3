import Positional.Proofs.Json.Numbers
import Positional.Proofs.Json.Strings

/-!
# The tokens of printed JSON

`Spells` says which texts spell which tokens: blanks anywhere, and something that ends it behind every
bare lexeme. The scanner finds these tokens (`tokens?_of_spells`). Both printed forms of a value spell
its tokens, so they differ in blanks alone.
-/

namespace Positional

namespace Json

def Delimited (text : List Char) : Prop := ∀ c, text.head? = some c → Scan.isDelimiter c = true

variable {reader : FloatReader}

inductive Spells (reader : FloatReader) : List Token → List Char → Prop
  | nil : Spells reader [] []
  | blank (hc : isBlank c = true) (h : Spells reader tokens rest) : Spells reader tokens (c :: rest)
  | mark (hc : punctuation? c = some token) (h : Spells reader tokens rest) :
      Spells reader (token :: tokens) (c :: rest)
  | string (text : String) (h : Spells reader tokens rest) :
      Spells reader (.string text :: tokens) (printString text ++ rest)
  | bare (hb : ofBare? reader word = some json) (hd : Delimited rest) (h : Spells reader tokens rest) :
      Spells reader (.scalar json :: tokens) (word ++ rest)

-- ---------------------------------------------------------------------------
-- Scanning
-- ---------------------------------------------------------------------------

namespace Scan

variable {found : List Token}

theorem run_begin (c : Char) (rest : List Char) :
    run reader ⟨found, .none⟩ (c :: rest) = run reader (begin found c) rest :=
  run_cons rfl rest

theorem begin_of_not_delimiter (h : isDelimiter c = false) : begin found c = ⟨found, .bare [c]⟩ := by
  simp only [isDelimiter, Bool.or_eq_false_iff] at h
  obtain ⟨⟨hblank, hquote⟩, hmark⟩ := h
  rw [begin, hblank, hquote, Option.isSome_eq_false_iff.mp hmark |> Option.isNone_iff_eq_none.mp]
  rfl

theorem run_bare {read : List Char} (h : ∀ c ∈ more, isDelimiter c = false) (rest : List Char) :
    run reader ⟨found, .bare read⟩ (more ++ rest) = run reader ⟨found, .bare (more.reverse ++ read)⟩ rest := by
  induction more generalizing read with
  | nil => rfl
  | cons c more ih =>
    obtain ⟨hc, hmore⟩ := List.forall_mem_cons.mp h
    have hstep : step reader ⟨found, .bare read⟩ c = some ⟨found, .bare (c :: read)⟩ := by simp [step, hc]
    rw [List.cons_append, run_cons hstep, ih hmore, List.reverse_cons, List.append_assoc]
    rfl

theorem run_end {read : List Char} (hb : ofBare? reader read.reverse = some json) (hd : Delimited rest) :
    run reader ⟨found, .bare read⟩ rest = run reader ⟨.scalar json :: found, .none⟩ rest := by
  cases rest with
  | nil => simp [run, finish, hb]
  | cons c rest =>
    have hstep : step reader ⟨found, .bare read⟩ c = some (begin (.scalar json :: found) c) := by
      simp [step, hd c rfl, hb]
    rw [run_cons hstep, run_begin]

theorem run_word (hb : ofBare? reader word = some json) (hd : Delimited rest) :
    run reader ⟨found, .none⟩ (word ++ rest) = run reader ⟨.scalar json :: found, .none⟩ rest := by
  cases word with
  | nil => cases hb
  | cons c more =>
    obtain ⟨hc, hmore⟩ := List.forall_mem_cons.mp (isDelimiter_bare hb)
    rw [List.cons_append, run_begin, begin_of_not_delimiter hc, run_bare hmore]
    exact run_end (by simpa using hb) hd

theorem begin_blank (h : isBlank c = true) : begin found c = ⟨found, .none⟩ := by
  rw [begin, if_pos h]

theorem begin_mark (h : punctuation? c = some token) : begin found c = ⟨token :: found, .none⟩ := by
  have hplain : isBlank c = false ∧ (c == '"') = false := by
    unfold punctuation? at h
    split at h <;> first | exact ⟨rfl, rfl⟩ | cases h
  rw [begin, hplain.1, hplain.2, h]
  rfl

theorem run_of_spells (h : Spells reader tokens text) (found : List Token) :
    run reader ⟨found, .none⟩ text = some (found.reverse ++ tokens) := by
  induction h generalizing found with
  | nil => simp [run, finish]
  | blank hc _ ih => rw [run_begin, begin_blank hc, ih]
  | mark hc _ ih =>
    rw [run_begin, begin_mark hc, ih]
    simp
  | string text _ ih =>
    rw [run_printString, ih]
    simp
  | bare hb hd _ ih =>
    rw [run_word hb hd, ih]
    simp

end Scan

theorem tokens?_of_spells (h : Spells reader tokens text) : tokens? reader text = some tokens :=
  Scan.run_of_spells h []

-- ---------------------------------------------------------------------------
-- The tokens of a value
-- ---------------------------------------------------------------------------

def separated : List (List Token) → List Token
  | [] => []
  | first :: rest => first ++ rest.flatMap (.comma :: ·)

mutual

def toTokens : Json → List Token
  | string text => [.string text]
  | array items => .openArray :: separated (itemTokens items) ++ [.closeArray]
  | object members => .openObject :: separated (memberTokens members) ++ [.closeObject]
  | scalar => [.scalar scalar]

def itemTokens : List Json → List (List Token)
  | [] => []
  | item :: rest => item.toTokens :: itemTokens rest

def memberTokens : List (String × Json) → List (List Token)
  | [] => []
  | (name, item) :: rest => (.string name :: .colon :: item.toTokens) :: memberTokens rest

end

mutual

/-- Whether every number in a value can be said exactly: floats are finite and integers have 64 bits. -/
def printable : Json → Bool
  | integer n => fits64 n
  | float x => x.isFinite
  | array items => printableItems items
  | object members => printableMembers members
  | _ => true

def printableItems : List Json → Bool
  | [] => true
  | item :: rest => item.printable && printableItems rest

def printableMembers : List (String × Json) → Bool
  | [] => true
  | (_, item) :: rest => item.printable && printableMembers rest

end

mutual

def floats : Json → List Binary64
  | float x => [x]
  | array items => itemFloats items
  | object members => memberFloats members
  | _ => []

def itemFloats : List Json → List Binary64
  | [] => []
  | item :: rest => item.floats ++ itemFloats rest

def memberFloats : List (String × Json) → List Binary64
  | [] => []
  | (_, item) :: rest => item.floats ++ memberFloats rest

end

theorem printableItems_iff : printableItems items = true ↔ ∀ item ∈ items, item.printable = true := by
  induction items with
  | nil => simp [printableItems]
  | cons item rest ih => simp [printableItems, ih]

theorem printableMembers_iff :
    printableMembers members = true ↔ ∀ member ∈ members, member.2.printable = true := by
  induction members with
  | nil => simp [printableMembers]
  | cons member rest ih => simp [printableMembers, ih]

mutual

theorem isFinite_of_printable : (json : Json) → json.printable = true →
    ∀ x ∈ json.floats, x.isFinite = true
  | float _, h => List.forall_mem_singleton.mpr h
  | array items, h => isFinite_of_printableItems items h
  | object members, h => isFinite_of_printableMembers members h
  | null, _ | bool _, _ | integer _, _ | string _, _ => by simp [floats]

theorem isFinite_of_printableItems : (items : List Json) → printableItems items = true →
    ∀ x ∈ itemFloats items, x.isFinite = true
  | [], _ => by simp [itemFloats]
  | item :: rest, h => by
    obtain ⟨hitem, hrest⟩ := (Bool.and_eq_true ..).mp h
    exact List.forall_mem_append.mpr
      ⟨isFinite_of_printable item hitem, isFinite_of_printableItems rest hrest⟩

theorem isFinite_of_printableMembers : (members : List (String × Json)) →
    printableMembers members = true → ∀ x ∈ memberFloats members, x.isFinite = true
  | [], _ => by simp [memberFloats]
  | (_, item) :: rest, h => by
    obtain ⟨hitem, hrest⟩ := (Bool.and_eq_true ..).mp h
    exact List.forall_mem_append.mpr
      ⟨isFinite_of_printable item hitem, isFinite_of_printableMembers rest hrest⟩

end

theorem rereads_of_printable {json : Json} (h : json.printable = true) :
    ∀ x ∈ json.floats, FloatReader.nearest.rereads x = true :=
  fun x hx => rereads_nearest (isFinite_of_printable json h x hx)

-- ---------------------------------------------------------------------------
-- Printed values
-- ---------------------------------------------------------------------------

/-- A text that spells tokens wherever it stands in front of a delimiter. -/
def SpellsItem (reader : FloatReader) (tokens : List Token) (text : List Char) : Prop :=
  ∀ more rest, Spells reader more rest → Delimited rest →
    Spells reader (tokens ++ more) (text ++ rest)

theorem SpellsItem.bare (hb : ofBare? reader word = some json) :
    SpellsItem reader [.scalar json] word :=
  fun _ _ h hd => .bare hb hd h

theorem spellsItem_string (text : String) : SpellsItem reader [.string text] (printString text) :=
  fun _ _ h _ => .string text h

theorem Spells.blanks {blanks : List Char} (hb : ∀ c ∈ blanks, isBlank c = true)
    (h : Spells reader tokens rest) : Spells reader tokens (blanks ++ rest) := by
  induction blanks with
  | nil => exact h
  | cons c blanks ih =>
    obtain ⟨hc, hblanks⟩ := List.forall_mem_cons.mp hb
    exact .blank hc (ih hblanks)

theorem delimited_blanks {blanks : List Char} (hb : ∀ c ∈ blanks, isBlank c = true)
    (hd : Delimited rest) : Delimited (blanks ++ rest) := by
  cases blanks with
  | nil => exact hd
  | cons c blanks =>
    intro c' hc
    cases hc
    simp [Scan.isDelimiter, hb c (List.mem_cons_self ..)]

theorem delimited_mark (h : punctuation? c = some token) (rest : List Char) : Delimited (c :: rest) := by
  intro c' hc
  cases hc
  simp [Scan.isDelimiter, h]

section

variable {blanks : List Char} (hb : ∀ c ∈ blanks, isBlank c = true)
include hb

theorem spells_further (h : List.Forall₂ (SpellsItem reader) tokens texts) (hs : Spells reader more rest)
    (hd : Delimited rest) :
    Spells reader (tokens.flatMap (.comma :: ·) ++ more)
        (texts.flatMap (fun text => ',' :: blanks ++ text) ++ rest) ∧
      Delimited (texts.flatMap (fun text => ',' :: blanks ++ text) ++ rest) := by
  induction h with
  | nil => exact ⟨hs, hd⟩
  | cons hitem _ ih =>
    obtain ⟨hspells, hdelimited⟩ := ih
    simp only [List.flatMap_cons, List.cons_append, List.append_assoc]
    exact ⟨.mark rfl (.blanks hb (hitem _ _ hspells hdelimited)), delimited_mark rfl _⟩

theorem spellsItem_enclosed (hl : punctuation? left = some opening)
    (hr : punctuation? right = some closing) {last : List Char} (hlast : ∀ c ∈ last, isBlank c = true)
    (hfirst : SpellsItem reader first text) (h : List.Forall₂ (SpellsItem reader) tokens texts) :
    SpellsItem reader (opening :: separated (first :: tokens) ++ [closing])
      (left :: blanks ++ text ++ texts.flatMap (fun text => ',' :: blanks ++ text) ++ last
        ++ [right]) := by
  intro more rest hs _
  have hend : Spells reader (closing :: more) (last ++ right :: rest) := .blanks hlast (.mark hr hs)
  obtain ⟨hspells, hdelimited⟩ :=
    spells_further hb h hend (delimited_blanks hlast (delimited_mark hr rest))
  simp only [separated, List.cons_append, List.append_assoc, List.nil_append]
  exact .mark hl (.blanks hb (hfirst _ _ hspells hdelimited))

end

theorem spellsItem_empty (hl : punctuation? left = some opening) (hr : punctuation? right = some closing) :
    SpellsItem reader (opening :: separated [] ++ [closing]) [left, right] :=
  fun _ _ hs _ => .mark hl (.mark hr hs)

theorem spellsItem_bracketed (hl : punctuation? left = some opening)
    (hr : punctuation? right = some closing) (h : List.Forall₂ (SpellsItem reader) tokens texts) :
    SpellsItem reader (opening :: separated tokens ++ [closing]) (bracketed left right texts) := by
  cases h with
  | nil => exact spellsItem_empty hl hr
  | cons hfirst hrest =>
    have hnone : ∀ c ∈ ([] : List Char), isBlank c = true := by simp
    simpa [bracketed] using spellsItem_enclosed hnone hl hr hnone hfirst hrest

theorem isBlank_line (indent : Nat) : ∀ c ∈ '\n' :: List.replicate (2 * indent) ' ', isBlank c = true := by
  intro c hc
  rcases List.mem_cons.mp hc with rfl | hc
  · rfl
  · rw [List.eq_of_mem_replicate hc]
    rfl

theorem spellsItem_bracketedLines (hl : punctuation? left = some opening)
    (hr : punctuation? right = some closing) (indent : Nat)
    (h : List.Forall₂ (SpellsItem reader) tokens texts) :
    SpellsItem reader (opening :: separated tokens ++ [closing]) (bracketedLines left right indent texts) := by
  cases h with
  | nil => exact spellsItem_empty hl hr
  | cons hfirst hrest =>
    exact spellsItem_enclosed (isBlank_line (indent + 1)) hl hr (isBlank_line indent) hfirst hrest

theorem spellsItem_member (name : String) (blanks : List Char) (hb : ∀ c ∈ blanks, isBlank c = true)
    (h : SpellsItem reader tokens text) :
    SpellsItem reader (.string name :: .colon :: tokens) (printString name ++ ':' :: (blanks ++ text)) := by
  intro more rest hs hd
  simp only [List.append_assoc, List.cons_append]
  exact .string name (.mark rfl (.blanks hb (h more rest hs hd)))

mutual

theorem spellsItem_printCompact : (json : Json) → json.printable = true →
    (∀ x ∈ json.floats, reader.rereads x = true) → SpellsItem reader json.toTokens json.printCompact
  | null, _, _ => .bare rfl
  | bool true, _, _ => .bare rfl
  | bool false, _, _ => .bare rfl
  | integer _, h, _ => .bare (ofBare?_printInteger h)
  | float x, _, hr => .bare (rereads_iff.mp (hr x (List.mem_singleton_self x)))
  | string text, _, _ => spellsItem_string text
  | array items, h, hr => spellsItem_bracketed rfl rfl (forall₂_printItems items h hr)
  | object members, h, hr => spellsItem_bracketed rfl rfl (forall₂_printMembers members h hr)

theorem forall₂_printItems : (items : List Json) → printableItems items = true →
    (∀ x ∈ itemFloats items, reader.rereads x = true) →
    List.Forall₂ (SpellsItem reader) (itemTokens items) (printItems items)
  | [], _, _ => .nil
  | item :: rest, h, hr => by
    obtain ⟨hitem, hrest⟩ := (Bool.and_eq_true ..).mp h
    obtain ⟨hr, hrs⟩ := List.forall_mem_append.mp hr
    exact .cons (spellsItem_printCompact item hitem hr) (forall₂_printItems rest hrest hrs)

theorem forall₂_printMembers : (members : List (String × Json)) → printableMembers members = true →
    (∀ x ∈ memberFloats members, reader.rereads x = true) →
    List.Forall₂ (SpellsItem reader) (memberTokens members) (printMembers members)
  | [], _, _ => .nil
  | (name, item) :: rest, h, hr => by
    obtain ⟨hitem, hrest⟩ := (Bool.and_eq_true ..).mp h
    obtain ⟨hr, hrs⟩ := List.forall_mem_append.mp hr
    exact .cons (spellsItem_member name [] (by simp) (spellsItem_printCompact item hitem hr))
      (forall₂_printMembers rest hrest hrs)

end

mutual

theorem spellsItem_printPretty (indent : Nat) : (json : Json) → json.printable = true →
    (∀ x ∈ json.floats, reader.rereads x = true) →
    SpellsItem reader json.toTokens (json.printPretty indent)
  | array items, h, hr =>
    spellsItem_bracketedLines rfl rfl indent (forall₂_prettyItems (indent + 1) items h hr)
  | object members, h, hr =>
    spellsItem_bracketedLines rfl rfl indent (forall₂_prettyMembers (indent + 1) members h hr)
  | null, h, hr => spellsItem_printCompact null h hr
  | bool flag, h, hr => spellsItem_printCompact (bool flag) h hr
  | integer n, h, hr => spellsItem_printCompact (integer n) h hr
  | float x, h, hr => spellsItem_printCompact (float x) h hr
  | string text, h, hr => spellsItem_printCompact (string text) h hr

theorem forall₂_prettyItems (indent : Nat) : (items : List Json) → printableItems items = true →
    (∀ x ∈ itemFloats items, reader.rereads x = true) →
    List.Forall₂ (SpellsItem reader) (itemTokens items) (prettyItems indent items)
  | [], _, _ => .nil
  | item :: rest, h, hr => by
    obtain ⟨hitem, hrest⟩ := (Bool.and_eq_true ..).mp h
    obtain ⟨hr, hrs⟩ := List.forall_mem_append.mp hr
    exact .cons (spellsItem_printPretty indent item hitem hr) (forall₂_prettyItems indent rest hrest hrs)

theorem forall₂_prettyMembers (indent : Nat) : (members : List (String × Json)) →
    printableMembers members = true → (∀ x ∈ memberFloats members, reader.rereads x = true) →
    List.Forall₂ (SpellsItem reader) (memberTokens members) (prettyMembers indent members)
  | [], _, _ => .nil
  | (name, item) :: rest, h, hr => by
    obtain ⟨hitem, hrest⟩ := (Bool.and_eq_true ..).mp h
    obtain ⟨hr, hrs⟩ := List.forall_mem_append.mp hr
    exact .cons (spellsItem_member name [' '] (by simp [isBlank])
      (spellsItem_printPretty indent item hitem hr)) (forall₂_prettyMembers indent rest hrest hrs)

end

/-- A printed value followed by blanks spells its tokens. -/
theorem SpellsItem.tokens? (h : SpellsItem reader tokens text) (blanks : List Char)
    (hb : ∀ c ∈ blanks, isBlank c = true) : Json.tokens? reader (text ++ blanks) = some tokens := by
  have hnil : Delimited [] := fun c hc => by cases hc
  have hspells := h [] blanks (List.append_nil blanks ▸ .blanks hb .nil)
    (List.append_nil blanks ▸ delimited_blanks hb hnil)
  rw [List.append_nil] at hspells
  exact tokens?_of_spells hspells

end Json

end Positional
