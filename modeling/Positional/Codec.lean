import Positional.Program.Reading
import Positional.Program.Writing

/-!
# Encoding and decoding

A program run over a whole document: to its bytes, and from bytes to the document.
-/

namespace Positional

/-- How a buffer is decoded: within which limits, and whether bytes may remain. -/
structure DecodeOptions extends Limits where
  strict : Bool := false
deriving DecidableEq

namespace DecodeOptions

def exact : DecodeOptions :=
  { strict := true }

end DecodeOptions

namespace Program

/-- Appends one document to a buffer. A run that fails leaves behind what it wrote before. -/
def write (program : Program) (data : Value) : Writer Unit :=
  Block.putAll program data

def encode (program : Program) (data : Value) : Except Error Bytes :=
  match (program.write data).run [] with
  | (.ok (), bytes) => .ok bytes
  | (.error error, _) => .error error

def read (program : Program) (options : DecodeOptions) (root : Value) : Reader Value := do
  let writes ← Block.readAll options.toLimits program 0
  let cursor ← get
  if options.strict && 0 < cursor.remaining then throw (.trailingBytes cursor.remaining)
  else return root.assignAll writes

/-- The document in a buffer, starting from an empty object. -/
def decode (program : Program) (options : DecodeOptions) (buffer : Bytes) : Except Error Value :=
  ((program.read options (.object [])).run (Cursor.start buffer)).1

end Program

end Positional
