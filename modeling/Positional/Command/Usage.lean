import Positional.Integer

/-!
# Usage

What a command takes: one file, flags, and options with a value. One description of it serves to
sort the words of a command line and to explain the command.
-/

namespace Positional

/-- What makes a switch an option: a value has to come with it. -/
structure Parameter where
  accepts : String → Bool
  letter : Option Char
  required : Bool

structure Switch where
  name : String
  parameter : Option Parameter
  summary : String

structure Usage where
  name : String
  summary : String
  file : String
  fileSummary : String
  /-- The flags and options, in the order in which they are explained. -/
  switches : List Switch

def digitsUpTo? (limit : Nat) (digits : List Char) : Option Nat :=
  if digits.isEmpty || !digits.all Char.isDigit then none
  else
    let n := Nat.ofDigitChars 10 digits 0
    if n ≤ limit then some n else none

/-- A number of 64 bits; a plus sign may lead. -/
def size? (word : String) : Option Nat :=
  match word.toList with
  | '+' :: digits => digitsUpTo? (UInt64.size - 1) digits
  | digits => digitsUpTo? (UInt64.size - 1) digits

/-- A number of 32 bits; a sign may lead, a minus only before zero. -/
def depth? (word : String) : Option Nat :=
  match word.toList with
  | '+' :: digits => digitsUpTo? (UInt32.size - 1) digits
  | '-' :: digits => digitsUpTo? 0 digits
  | digits => digitsUpTo? (UInt32.size - 1) digits

def isFileName (word : String) : Bool :=
  word != ""

namespace Switch

def flag (name summary : String) : Switch :=
  ⟨name, none, summary⟩

def option (name : String) (accepts : String → Bool) (summary : String) : Switch :=
  ⟨name, some ⟨accepts, none, false⟩, summary⟩

def isRequired (switch : Switch) : Bool :=
  switch.parameter.any (·.required)

def hasLetter (switch : Switch) (letter : Char) : Bool :=
  switch.parameter.any (·.letter == some letter)

end Switch

namespace Usage

def programSwitches : List Switch :=
  [.option "program" isFileName "Compiled program in JSON interchange form",
    .option "schema" isFileName "Schema description compiled on the fly"]

def compile : Usage where
  name := "compile"
  summary := "Compile a schema description into a block program"
  file := "schema"
  fileSummary := "Schema description file"
  switches := [.flag "json" "Print the program in JSON interchange form"]

def inspect : Usage where
  name := "inspect"
  summary := "List the blocks of a compiled program"
  file := "program"
  fileSummary := "Compiled program in JSON interchange form"
  switches := []

def encode : Usage where
  name := "encode"
  summary := "Encode a JSON document into a binary buffer"
  file := "data"
  fileSummary := "JSON document to encode"
  switches := programSwitches ++
    [⟨"output", some ⟨isFileName, some 'o', true⟩, "Output file"⟩,
      .flag "zstd" "Wrap the encoded buffer in a zstd frame"]

def decode : Usage where
  name := "decode"
  summary := "Decode a binary buffer into a JSON document"
  file := "input"
  fileSummary := "Encoded buffer"
  switches := programSwitches ++
    [.flag "zstd" "Input is wrapped in a zstd frame",
      .flag "strict" "Fail when bytes remain after decoding",
      .option "max-array" (fun word => (size? word).isSome) "",
      .option "max-depth" (fun word => (depth? word).isSome) ""]

def switch? (usage : Usage) (name : String) : Option Switch :=
  usage.switches.find? (·.name == name)

def lettered? (usage : Usage) (letter : Char) : Option Switch :=
  usage.switches.find? (·.hasLetter letter)

end Usage

end Positional
