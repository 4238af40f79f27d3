import Positional.Json.Basic
import Positional.Json.Numeral

/-!
# JSON tokens

A text is cut into punctuation, strings and bare lexemes (numbers and the three words). A bare
lexeme extends to the next blank, quote or punctuation, so whatever is not well formed there is
refused as a whole.
-/

namespace Positional

namespace Json

inductive Token where
  | openArray
  | closeArray
  | openObject
  | closeObject
  | comma
  | colon
  | string (text : String)
  /-- A number, a flag or null. -/
  | scalar (json : Json)

def isBlank (c : Char) : Bool :=
  c == ' ' || c == '\t' || c == '\n' || c == '\r'

def punctuation? (c : Char) : Option Token :=
  match c with
  | '[' => some .openArray
  | ']' => some .closeArray
  | '\x7b' => some .openObject
  | '\x7d' => some .closeObject
  | ',' => some .comma
  | ':' => some .colon
  | _ => none

/-! ## Numbers -/

/-- The digits of a fraction, if one begins here, and what follows. A point needs a digit. -/
def fraction? (text : List Char) : Option (List Char × List Char) :=
  match text with
  | '.' :: rest =>
    match rest.takeWhile Char.isDigit with
    | [] => none
    | digits => some (digits, rest.dropWhile Char.isDigit)
  | text => some ([], text)

def exponent? (text : List Char) : Option Int :=
  match text with
  | [] => some 0
  | mark :: signed =>
    let (negative, digits) : Bool × List Char := match signed with
      | '-' :: rest => (true, rest)
      | '+' :: rest => (false, rest)
      | rest => (false, rest)
    if (mark == 'e' || mark == 'E') && digits != [] && digits.all Char.isDigit then
      some (Positional.signed negative (Nat.ofDigitChars 10 digits 0))
    else none

/-- The float of a numeral, unless it is out of range. -/
def finite? (reader : FloatReader) (numeral : Numeral) : Option Json :=
  ((reader numeral).filter Binary64.isFinite).map float

/-- An integer, or a float if it is beyond 64 bits; a negative zero is a float. -/
def ofWhole? (reader : FloatReader) (negative : Bool) (whole : List Char) : Option Json :=
  let digits := Nat.ofDigitChars 10 whole 0
  let n := signed negative digits
  if negative && digits == 0 then some (float (.ofMagnitude true 0))
  else if (int64? n).isSome || (uint64? n).isSome then some (integer n)
  else finite? reader ⟨negative, whole, [], 0⟩

/-- An unsigned number: digits without a leading zero, then perhaps a fraction and an exponent. With
either it is a float. -/
def unsigned? (reader : FloatReader) (negative : Bool) (text : List Char) : Option Json :=
  let whole := text.takeWhile Char.isDigit
  let rest := text.dropWhile Char.isDigit
  if whole.isEmpty || (1 < whole.length && whole.head? == some '0') then none
  else if rest.isEmpty then ofWhole? reader negative whole
  else do
    let (fraction, tail) ← fraction? rest
    let exponent ← exponent? tail
    finite? reader ⟨negative, whole, fraction, exponent⟩

def ofBare? (reader : FloatReader) (text : List Char) : Option Json :=
  match text with
  | ['n', 'u', 'l', 'l'] => some null
  | ['t', 'r', 'u', 'e'] => some (bool true)
  | ['f', 'a', 'l', 's', 'e'] => some (bool false)
  | '-' :: rest => unsigned? reader true rest
  | text => unsigned? reader false text

/-! ## Strings -/

def hexDigit? (c : Char) : Option Nat :=
  if '0' ≤ c && c ≤ '9' then some (c.toNat - '0'.toNat)
  else if 'a' ≤ c && c ≤ 'f' then some (c.toNat - 'a'.toNat + 10)
  else if 'A' ≤ c && c ≤ 'F' then some (c.toNat - 'A'.toNat + 10)
  else none

def hex4? (a b c d : Char) : Option Nat := do
  return (((← hexDigit? a) * 16 + (← hexDigit? b)) * 16 + (← hexDigit? c)) * 16 + (← hexDigit? d)

def simpleEscape? (c : Char) : Option Char :=
  match c with
  | '"' => some '"'
  | '\\' => some '\\'
  | '/' => some '/'
  | 'b' => some '\x08'
  | 'f' => some '\x0c'
  | 'n' => some '\n'
  | 'r' => some '\r'
  | 't' => some '\t'
  | _ => none

/-- The codes that the text between the quotes of a string spells: code points, and surrogates where
an escape gives one. A control character must be escaped. -/
def codes? : List Char → Option (List Nat)
  | [] => some []
  | '\\' :: 'u' :: a :: b :: c :: d :: rest => do
    let code ← hex4? a b c d
    return code :: (← codes? rest)
  | '\\' :: c :: rest => do
    let plain ← simpleEscape? c
    return plain.toNat :: (← codes? rest)
  | c :: rest =>
    if c.toNat < 32 || c == '\\' then none
    else do return c.toNat :: (← codes? rest)

def isHighSurrogate (code : Nat) : Bool :=
  0xd800 ≤ code && code < 0xdc00

def isLowSurrogate (code : Nat) : Bool :=
  0xdc00 ≤ code && code < 0xe000

/-- The characters of codes. Surrogates count only as a pair, which is one character. -/
def joinSurrogates? : List Nat → Option (List Char)
  | [] => some []
  | [code] =>
    if isHighSurrogate code || isLowSurrogate code then none else some [Char.ofNat code]
  | first :: second :: rest =>
    if isHighSurrogate first then
      if isLowSurrogate second then
        let code := 0x10000 + (first - 0xd800) * 0x400 + (second - 0xdc00)
        (joinSurrogates? rest).map (Char.ofNat code :: ·)
      else none
    else if isLowSurrogate first then none
    else (joinSurrogates? (second :: rest)).map (Char.ofNat first :: ·)

def unescape? (text : List Char) : Option (List Char) :=
  (codes? text).bind joinSurrogates?

/-! ## Scanning -/

/-- What the scanner is in the middle of; the characters read are in reverse. -/
inductive Lexeme where
  | none
  | bare (read : List Char)
  /-- A string; `escaped` after a backslash that is not itself escaped. -/
  | string (read : List Char) (escaped : Bool)

structure Scan where
  found : List Token
  lexeme : Lexeme

namespace Scan

def begin (found : List Token) (c : Char) : Scan :=
  if isBlank c then ⟨found, .none⟩
  else if c == '"' then ⟨found, .string [] false⟩
  else match punctuation? c with
    | some token => ⟨token :: found, .none⟩
    | none => ⟨found, .bare [c]⟩

def isDelimiter (c : Char) : Bool :=
  isBlank c || c == '"' || (punctuation? c).isSome

def step (reader : FloatReader) (scan : Scan) (c : Char) : Option Scan :=
  match scan.lexeme with
  | .none => some (begin scan.found c)
  | .bare read =>
    if isDelimiter c then
      (ofBare? reader read.reverse).map fun json => begin (.scalar json :: scan.found) c
    else some ⟨scan.found, .bare (c :: read)⟩
  | .string read escaped =>
    if escaped then some ⟨scan.found, .string (c :: read) false⟩
    else if c == '"' then
      (unescape? read.reverse).map fun text =>
        ⟨.string (String.ofList text) :: scan.found, .none⟩
    else some ⟨scan.found, .string (c :: read) (c == '\\')⟩

def finish (reader : FloatReader) (scan : Scan) : Option (List Token) :=
  match scan.lexeme with
  | .none => some scan.found.reverse
  | .bare read =>
    (ofBare? reader read.reverse).map fun json => (.scalar json :: scan.found).reverse
  | .string _ _ => none

end Scan

def tokens? (reader : FloatReader) (text : List Char) : Option (List Token) :=
  (text.foldlM (Scan.step reader) ⟨[], .none⟩).bind (Scan.finish reader)

end Json

end Positional
