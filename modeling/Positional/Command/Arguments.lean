import Positional.Command.Usage

/-!
# Command arguments

The words of a command line are sorted into the command's file, flags and options with values. An
option's value follows it, or stands behind an equals sign; after `--` every word is a file. The
words are taken one by one, so that the first that is wrong or asks for help decides.
-/

namespace Positional

/-- The arguments of a command, flags and options in the order given. -/
structure Arguments where
  file : Option String
  flags : List String
  options : List (String × String)
deriving DecidableEq

inductive Refusal where
  | usage
  | help
deriving DecidableEq

namespace Arguments

def empty : Arguments :=
  ⟨none, [], []⟩

def addFile (arguments : Arguments) (word : String) : Except Refusal Arguments :=
  if arguments.file.isSome || !isFileName word then .error .usage
  else .ok { arguments with file := some word }

def addFlag (arguments : Arguments) (name : String) : Except Refusal Arguments :=
  if arguments.flags.contains name then .error .usage
  else .ok { arguments with flags := arguments.flags ++ [name] }

def addOption (arguments : Arguments) (name : String) (parameter : Parameter) (value : String) :
    Except Refusal Arguments :=
  if (arguments.options.lookup name).isSome || !parameter.accepts value then .error .usage
  else .ok { arguments with options := arguments.options ++ [(name, value)] }

def hasFlag (arguments : Arguments) (name : String) : Bool :=
  arguments.flags.contains name

def option? (arguments : Arguments) (name : String) : Option String :=
  arguments.options.lookup name

inductive Expected where
  | any
  | value (name : String) (parameter : Parameter)
  | file

/-- Whether a word has the form of a flag or an option. A lone dash has not. -/
def isDashed (word : String) : Bool :=
  match word.toList with
  | '-' :: _ :: _ => true
  | _ => false

def addValue (arguments : Arguments) (name : String) (parameter : Parameter) :
    Option String → Except Refusal (Arguments × Expected)
  | some value => (arguments.addOption name parameter value).map (·, .any)
  | none => .ok (arguments, .value name parameter)

def addLong (usage : Usage) (arguments : Arguments) (name : String) (value : Option String) :
    Except Refusal (Arguments × Expected) :=
  match usage.switch? name, value with
  | some ⟨_, some parameter, _⟩, value => arguments.addValue name parameter value
  | some ⟨_, none, _⟩, none => (arguments.addFlag name).map (·, .any)
  | some ⟨_, none, _⟩, some _ => .error .usage
  | none, none => .error (if name == "help" then .help else .usage)
  | none, some _ => .error .usage

def addLettered (usage : Usage) (arguments : Arguments) (letter : Char) (value : Option String) :
    Except Refusal (Arguments × Expected) :=
  match usage.lettered? letter with
  | some ⟨name, some parameter, _⟩ => arguments.addValue name parameter value
  | _ => .error (if letter == 'h' then .help else .usage)

def addWord (usage : Usage) (arguments : Arguments) (word : String) :
    Except Refusal (Arguments × Expected) :=
  match word.toList with
  | ['-', '-'] => .ok (arguments, .file)
  | '-' :: '-' :: long =>
    let value := match long.dropWhile (· != '=') with
      | _ :: value => some (String.ofList value)
      | [] => none
    addLong usage arguments (String.ofList (long.takeWhile (· != '='))) value
  | ['-', letter] => addLettered usage arguments letter none
  | '-' :: letter :: '=' :: value =>
    addLettered usage arguments letter (some (String.ofList value))
  | '-' :: letter :: value => addLettered usage arguments letter (some (String.ofList value))
  | _ => (arguments.addFile word).map (·, .any)

def step (usage : Usage) (state : Arguments × Expected) (word : String) :
    Except Refusal (Arguments × Expected) :=
  match state with
  | (arguments, .file) => (arguments.addFile word).map (·, .file)
  | (arguments, .value name parameter) =>
    if isDashed word then .error .usage
    else (arguments.addOption name parameter word).map (·, .any)
  | (arguments, .any) => addWord usage arguments word

/-- The arguments that words give, if the usage allows them. -/
def parse (usage : Usage) (words : List String) : Except Refusal Arguments := do
  match ← words.foldlM (step usage) (empty, .any) with
  | (_, .value _ _) => throw .usage
  | (arguments, _) => return arguments

end Arguments

end Positional
