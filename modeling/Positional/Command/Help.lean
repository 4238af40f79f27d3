import Positional.Command.Usage

/-!
# Help

The pages that explain the commands, made from their usages.
-/

namespace Positional

inductive Topic where
  | overview
  | compile
  | inspect
  | encode
  | decode
  | help
deriving DecidableEq

def padTo (width : Nat) (text : String) : String :=
  text ++ String.ofList (List.replicate (width - text.length) ' ')

/-- Rows of two columns, of which the first is as wide as its longest entry. -/
def tableLines (rows : List (String × String)) : List String :=
  let width := rows.foldl (fun width row => max width row.1.length) 0
  rows.map fun row => "  " ++ padTo width row.1 ++ "  " ++ row.2

def headedLines (heading : String) (rows : List (String × String)) : List String :=
  "" :: heading :: tableLines rows

def helpRow : String × String :=
  ("-h, --help", "Print help")

def placeholder (name : String) : String :=
  "<" ++ name.map (fun c => if c == '-' then '_' else c.toUpper) ++ ">"

namespace Switch

def long (switch : Switch) : String :=
  "--" ++ switch.name ++ (if switch.parameter.isSome then " " ++ placeholder switch.name else "")

/-- The row of a switch, which leaves room for a letter. -/
def row (switch : Switch) : String × String :=
  match switch.parameter.bind (·.letter) with
  | some letter => (String.ofList ['-', letter, ',', ' '] ++ switch.long, switch.summary)
  | none => ("    " ++ switch.long, switch.summary)

end Switch

namespace Usage

/-- The words of a command line: what may be left out is gathered under one word. -/
def synopsis (usage : Usage) : List String :=
  usage.name :: (if usage.switches.all (·.isRequired) then [] else ["[OPTIONS]"]) ++
    (usage.switches.filter (·.isRequired)).map (·.long) ++ [placeholder usage.file]

def pageLines (usage : Usage) : List String :=
  [usage.summary, "", "Usage: blockwire " ++ " ".intercalate usage.synopsis] ++
    headedLines "Arguments:" [(placeholder usage.file, usage.fileSummary)] ++
    headedLines "Options:" (usage.switches.map (·.row) ++ [helpRow])

end Usage

namespace Topic

def helpSummary : String :=
  "Print this message or the help of the given subcommand(s)"

def usages : List Usage :=
  [.compile, .inspect, .encode, .decode]

def overviewLines : List String :=
  ["Compile schemas into block programs and run the positional binary codec", "",
    "Usage: blockwire <COMMAND>"] ++
    headedLines "Commands:"
      (usages.map (fun usage => (usage.name, usage.summary)) ++ [("help", helpSummary)]) ++
    headedLines "Options:" [helpRow]

def helpLines : List String :=
  [helpSummary, "", "Usage: blockwire help [COMMAND]..."] ++
    headedLines "Arguments:" [("[COMMAND]...", "Print help for the subcommand(s)")]

def lines : Topic → List String
  | overview => overviewLines
  | compile => Usage.compile.pageLines
  | inspect => Usage.inspect.pageLines
  | encode => Usage.encode.pageLines
  | decode => Usage.decode.pageLines
  | help => helpLines

def page (topic : Topic) : String :=
  String.join (topic.lines.map (· ++ "\n"))

def ofName? (name : String) : Option Topic :=
  match name with
  | "compile" => some compile
  | "inspect" => some inspect
  | "encode" => some encode
  | "decode" => some decode
  | "help" => some help
  | _ => none

end Topic

end Positional
