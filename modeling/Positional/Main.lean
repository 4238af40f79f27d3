import Positional.Command.Run

/-!
# The command line

Reads the files that an invocation needs, carries it out, and writes and prints what it yields.
-/

namespace Positional

/-- The reason that the operating system gives. -/
def fileError : IO.Error → FileError
  | .inappropriateType _ code _ => if code == 21 then .isDirectory else .notDirectory
  | .invalidArgument _ code _ => if code == 36 then .nameTooLong else .missing
  | _ => .missing

def readInput (name : String) : IO (Except FileError Bytes) := do
  try
    return .ok (← IO.FS.readBinFile name).data.toList
  catch error => return .error (fileError error)

def report (failure : Failure) : IO UInt32 := do
  IO.eprintln s!"error: {failure.message}"
  return 1

end Positional

open Positional in
def main (words : List String) : IO UInt32 := do
  match Libraries.standard.parse? words with
  | none => return 2
  | some invocation =>
    let files ← invocation.inputs.mapM fun name => return (name, ← readInput name)
    match invocation.execute .standard fun name => (files.lookup name).getD (.error .missing) with
    | .error failure => report failure
    | .ok effect =>
      match effect.written with
      | none =>
        IO.print effect.stdout
        return 0
      | some (name, content) =>
        try
          IO.FS.writeBinFile name ⟨content.toArray⟩
          IO.print effect.stdout
          return 0
        catch error => report (.file name (fileError error))
