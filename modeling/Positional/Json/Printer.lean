import Positional.Binary64.Shortest
import Positional.Json.Basic

/-!
# Printing JSON

The compact form has no blanks. The pretty form puts every item on a line of its own, two blanks
deeper than its container; empty containers stay on one line.
-/

namespace Positional

namespace Json

/-- Floats are plain from `0.00001` up to below `1e16`; a positive exponent carries a plus sign, and
a decimal halfway between two goes to the even one. -/
def floatLayout : FloatLayout :=
  ⟨.toEven, -5, 15, true⟩

example : floatLayout.text ⟨0x3ff0000000000000⟩ = "1.0".toList := by decide +kernel
example : floatLayout.text ⟨0x3ee4f8b588e368f1⟩ = "0.00001".toList := by decide +kernel
example : floatLayout.text ⟨0x3eb0c6f7a0b5ed8d⟩ = "1e-6".toList := by decide +kernel
example : floatLayout.text ⟨0x4341c37937e08000⟩ = "1e+16".toList := by decide +kernel
example : floatLayout.text ⟨0x4310000000000001⟩ = "1125899906842624.2".toList := by decide +kernel

/-- One character inside a JSON string. Only quotes, backslashes and control characters need an
escape. -/
def escapeChar (c : Char) : List Char :=
  match c with
  | '"' => ['\\', '"']
  | '\\' => ['\\', '\\']
  | '\n' => ['\\', 'n']
  | '\r' => ['\\', 'r']
  | '\t' => ['\\', 't']
  | '\x08' => ['\\', 'b']
  | '\x0c' => ['\\', 'f']
  | c =>
    if c.toNat < 32 then
      ['\\', 'u', '0', '0', Nat.digitChar (c.toNat / 16), Nat.digitChar (c.toNat % 16)]
    else [c]

def printString (text : String) : List Char :=
  '"' :: text.toList.flatMap escapeChar ++ ['"']

def printInteger : Int → List Char
  | .ofNat n => Nat.toDigits 10 n
  | .negSucc n => '-' :: Nat.toDigits 10 (n + 1)

def bracketed (left right : Char) : List (List Char) → List Char
  | [] => [left, right]
  | first :: rest => left :: first ++ rest.flatMap (',' :: ·) ++ [right]

def bracketedLines (left right : Char) (indent : Nat) : List (List Char) → List Char
  | [] => [left, right]
  | first :: rest =>
    let line := '\n' :: List.replicate (2 * (indent + 1)) ' '
    left :: line ++ first ++ rest.flatMap (fun item => ',' :: line ++ item) ++
      '\n' :: List.replicate (2 * indent) ' ' ++ [right]

mutual

def printCompact : Json → List Char
  | null => ['n', 'u', 'l', 'l']
  | bool true => ['t', 'r', 'u', 'e']
  | bool false => ['f', 'a', 'l', 's', 'e']
  | integer n => printInteger n
  | float x => floatLayout.text x
  | string text => printString text
  | array items => bracketed '[' ']' (printItems items)
  | object members => bracketed '\x7b' '\x7d' (printMembers members)

def printItems : List Json → List (List Char)
  | [] => []
  | item :: rest => item.printCompact :: printItems rest

def printMembers : List (String × Json) → List (List Char)
  | [] => []
  | (name, item) :: rest => (printString name ++ ':' :: item.printCompact) :: printMembers rest

end

mutual

/-- The pretty form of a value that stands `indent` levels deep. -/
def printPretty (indent : Nat) : Json → List Char
  | array items => bracketedLines '[' ']' indent (prettyItems (indent + 1) items)
  | object members =>
    bracketedLines '\x7b' '\x7d' indent (prettyMembers (indent + 1) members)
  | scalar => scalar.printCompact

def prettyItems (indent : Nat) : List Json → List (List Char)
  | [] => []
  | item :: rest => item.printPretty indent :: prettyItems indent rest

def prettyMembers (indent : Nat) : List (String × Json) → List (List Char)
  | [] => []
  | (name, item) :: rest =>
    (printString name ++ ':' :: ' ' :: item.printPretty indent) :: prettyMembers indent rest

end

def compact (json : Json) : String :=
  String.ofList json.printCompact

def pretty (json : Json) : String :=
  String.ofList (json.printPretty 0)

end Json

end Positional
