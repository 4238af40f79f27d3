import Positional.Codec
import Positional.Command.Arguments
import Positional.Command.Help

/-!
# Invocations

What a command line asks for. A command line that asks for nothing sensible has no invocation; one
that asks for help is given it, whatever is missing.
-/

namespace Positional

inductive ProgramFile where
  | interchange (name : String)
  | description (name : String)
deriving DecidableEq

inductive Invocation where
  /-- Compile a description and print its program, as interchange text or as a listing. -/
  | compile (description : String) (json : Bool)
  | inspect (program : String)
  | encode (program : Option ProgramFile) (document output : String) (compressed : Bool)
  | decode (program : Option ProgramFile) (input : String) (compressed : Bool)
    (options : DecodeOptions)
  | help (topic : Topic)
deriving DecidableEq

namespace Invocation

def readOption? (arguments : Arguments) (name : String) (read : String → Option α) :
    Option (Option α) :=
  match arguments.option? name with
  | some word => (read word).map some
  | none => some none

/-- The program that a command names; it cannot be named both ways. -/
def programFile? (arguments : Arguments) : Option (Option ProgramFile) :=
  match arguments.option? "program", arguments.option? "schema" with
  | some _, some _ => none
  | some name, none => some (some (.interchange name))
  | none, some name => some (some (.description name))
  | none, none => some none

def compile? (arguments : Arguments) : Option Invocation := do
  let description ← arguments.file
  return compile description (arguments.hasFlag "json")

def inspect? (arguments : Arguments) : Option Invocation := do
  let program ← arguments.file
  return inspect program

def encode? (arguments : Arguments) : Option Invocation := do
  let program ← programFile? arguments
  let document ← arguments.file
  let output ← arguments.option? "output"
  return encode program document output (arguments.hasFlag "zstd")

def decode? (arguments : Arguments) : Option Invocation := do
  let program ← programFile? arguments
  let input ← arguments.file
  let elements ← readOption? arguments "max-array" size?
  let depth ← readOption? arguments "max-depth" depth?
  let limits : Limits := {}
  return decode program input (arguments.hasFlag "zstd")
    { arrayElements := elements.getD limits.arrayElements
      depth := depth.getD limits.depth
      strict := arguments.hasFlag "strict" }

def ofCommand? (usage : Usage) (topic : Topic) (make? : Arguments → Option Invocation)
    (words : List String) : Option Invocation :=
  match Arguments.parse usage words with
  | .ok arguments => make? arguments
  | .error .help => some (help topic)
  | .error .usage => none

def help? : List String → Option Invocation
  | [] => some (help .overview)
  | [name] => (Topic.ofName? name).map help
  | _ => none

def asksForHelp (word : String) : Bool :=
  word == "--help" ||
    match word.toList with
    | '-' :: 'h' :: _ => true
    | _ => false

def parse? : List String → Option Invocation
  | "compile" :: words => ofCommand? .compile .compile compile? words
  | "inspect" :: words => ofCommand? .inspect .inspect inspect? words
  | "encode" :: words => ofCommand? .encode .encode encode? words
  | "decode" :: words => ofCommand? .decode .decode decode? words
  | "help" :: words => help? words
  | word :: _ => if asksForHelp word then some (help .overview) else none
  | [] => none

def inputs : Invocation → List String
  | compile description _ => [description]
  | inspect program => [program]
  | encode program document _ _ => programNames program ++ [document]
  | decode program input _ _ => programNames program ++ [input]
  | help _ => []
where
  programNames : Option ProgramFile → List String
    | some (.interchange name) => [name]
    | some (.description name) => [name]
    | none => []

end Invocation

end Positional
