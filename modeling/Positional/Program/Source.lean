import Positional.Program.Interchange
import Positional.Schema.Compilation
import Positional.Schema.Description

/-!
# Where programs come from

A program is read from its interchange text or compiled from the text of a schema description.
-/

namespace Positional

inductive SourceError where
  | malformed
  | literal (value : Json)
  | compilation (error : Error)

namespace Program

def ofInterchange (text : String) (reader : Json.FloatReader := .scaled) :
    Except SourceError Program :=
  match parse? text reader with
  | some program => .ok program
  | none => .error .malformed

def ofDescription (text : String) (reader : Json.FloatReader := .scaled) :
    Except SourceError Program :=
  match Description.parse? text reader with
  | none => .error .malformed
  | some description =>
    match description.toSchema with
    | .error value => .error (.literal value)
    | .ok schema => schema.compile.mapError .compilation

end Program

end Positional
