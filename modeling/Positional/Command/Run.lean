import Positional.Command.Directory
import Positional.Command.Libraries
import Positional.Json.Document
import Positional.Program.Listing
import Positional.Program.Source

/-!
# Running commands

An invocation is a function of the files it reads: it prints a text and may write one file, or it
fails and does neither. A whole command line then runs in a directory, which only a successful
encoding changes.
-/

namespace Positional

inductive Failure where
  | file (name : String) (error : FileError)
  | notJson (name : String)
  | noProgram
  | literal (value : Json)
  | codec (error : Error)
  /-- A file cannot be compressed, or is no compressed file. -/
  | compression
  /-- A compressed file holds more than it may. -/
  | tooLarge

def maxDecompressed : Nat := 512 * 1024 * 1024

namespace Failure

def message : Failure → String
  | file name error => s!"{name}: {error.message}"
  | notJson name => s!"{name}: invalid json: not the expected document"
  | noProgram => "one of --program or --schema is required"
  | literal value => Description.literalMessage value
  | codec error => error.message
  | compression => "zstd: malformed frame"
  | tooLarge => s!"decompressed input too large (limit={maxDecompressed} bytes)"

def ofSource (name : String) : SourceError → Failure
  | .malformed => notJson name
  | .literal value => literal value
  | .compilation error => codec error

end Failure

/-- What a command does when it succeeds: what it prints, and the file that it writes first. -/
structure Effect where
  stdout : String
  written : Option (String × Bytes)

namespace Decoding

/-- Puts the pieces of a decoding behind those that are collected, as long as they may be. -/
def collect (failed : Bool) (collected : Bytes) : List Bytes → Except Failure Bytes
  | [] => if failed then .error .compression else .ok collected
  | piece :: rest =>
    if piece.isEmpty then .ok collected
    else if maxDecompressed < collected.length + piece.length then .error .tooLarge
    else collect failed (collected ++ piece) rest

end Decoding

namespace Libraries

def pack (libraries : Libraries) (compressed : Bool) (content : Bytes) : Except Failure Bytes :=
  if compressed then
    match libraries.compress? content with
    | some file => .ok file
    | none => .error .compression
  else .ok content

def unpack (libraries : Libraries) (compressed : Bool) (file : Bytes) : Except Failure Bytes :=
  if compressed then
    let decoding := libraries.decode file
    Decoding.collect decoding.failed [] decoding.pieces
  else .ok file

end Libraries

namespace Invocation

def load (read : String → Except FileError Bytes) (name : String) : Except Failure Bytes :=
  (read name).mapError (.file name)

def loadText (read : String → Except FileError Bytes) (name : String) :
    Except Failure String := do
  match Wire.ofUtf8? (← load read name) with
  | some text => return text
  | none => throw (.notJson name)

def loadInterchange (floats : Json.FloatReader) (read : String → Except FileError Bytes)
    (name : String) : Except Failure Program := do
  (Program.ofInterchange (← loadText read name) floats).mapError (.ofSource name)

def loadDescription (floats : Json.FloatReader) (read : String → Except FileError Bytes)
    (name : String) : Except Failure Program := do
  (Program.ofDescription (← loadText read name) floats).mapError (.ofSource name)

def loadProgram (floats : Json.FloatReader) (read : String → Except FileError Bytes) :
    Option ProgramFile → Except Failure Program
  | some (.interchange name) => loadInterchange floats read name
  | some (.description name) => loadDescription floats read name
  | none => .error .noProgram

def loadDocument (floats : Json.FloatReader) (read : String → Except FileError Bytes)
    (name : String) : Except Failure Value := do
  match Json.parse? (← loadText read name) floats with
  | some json => return json.toValue
  | none => throw (.notJson name)

def encodeReport (output : String) (encoded written : Bytes) (compressed : Bool) : Json :=
  .object [("output", .string output), ("encoded_bytes", .integer encoded.length),
    ("written_bytes", .integer written.length), ("zstd", .bool compressed)]

/-- Carries out an invocation with the files that it reads. -/
def execute (libraries : Libraries) (read : String → Except FileError Bytes) :
    Invocation → Except Failure Effect
  | compile description json => do
    let program ← loadDescription libraries.floats read description
    return ⟨if json then program.toJson.pretty ++ "\n" else program.listing, none⟩
  | inspect program => do
    let program ← loadInterchange libraries.floats read program
    return ⟨program.listing, none⟩
  | encode program document output compressed => do
    let program ← loadProgram libraries.floats read program
    let value ← loadDocument libraries.floats read document
    let encoded ← (program.encode value).mapError .codec
    let written ← libraries.pack compressed encoded
    return ⟨(encodeReport output encoded written compressed).pretty ++ "\n",
      some (output, written)⟩
  | decode program input compressed options => do
    let program ← loadProgram libraries.floats read program
    let content ← load read input
    let buffer ← libraries.unpack compressed content
    let value ← (program.decode options buffer).mapError .codec
    return ⟨value.toJson.pretty ++ "\n", none⟩
  | help topic => return ⟨libraries.page topic, none⟩

end Invocation

structure Outcome where
  exitCode : Nat
  stdout : String
  stderr : String
  directory : Directory

namespace Directory

def fails (directory : Directory) (failure : Failure) : Outcome :=
  ⟨1, "", s!"error: {failure.message}\n", directory⟩

def carryOut (directory : Directory) (invocation : Invocation)
    (libraries : Libraries := .standard) : Outcome :=
  match invocation.execute libraries directory.read with
  | .error failure => directory.fails failure
  | .ok ⟨stdout, none⟩ => ⟨0, stdout, "", directory⟩
  | .ok ⟨stdout, some (name, content)⟩ =>
    match directory.write name content with
    | .ok changed => ⟨0, stdout, "", changed⟩
    | .error error => directory.fails (.file name error)

/-- Runs a command line. One that has no invocation ends with code 2. -/
def run (directory : Directory) (words : List String) (libraries : Libraries := .standard) :
    Outcome :=
  match libraries.parse? words with
  | none => ⟨2, "", "", directory⟩
  | some invocation => directory.carryOut invocation libraries

end Directory

end Positional
