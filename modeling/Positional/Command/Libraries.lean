import Positional.Command.Invocation
import Positional.Json.Numeral
import Positional.Zstandard

/-!
# What the commands take from elsewhere

The words of a command line, the floats of JSON texts and compressed files are read by libraries of
their own, whose ways are left open here. `Libraries.standard` is one choice of them.
-/

namespace Positional

/-- What comes out of a compressed file piece by piece, and whether the decoder fails behind that. An
empty piece is the end. -/
structure Decoding where
  pieces : List Bytes
  failed : Bool

structure Libraries where
  parse? : List String → Option Invocation
  page : Topic → String
  floats : Json.FloatReader
  compress? : Bytes → Option Bytes
  decode : Bytes → Decoding

namespace Libraries

/-- Files are compressed to frames of stored blocks, which have room for eight bytes of size. -/
def standard : Libraries where
  parse? := Invocation.parse?
  page := Topic.page
  floats := .scaled
  compress? content :=
    if content.length < UInt64.size then some (Zstandard.compress content) else none
  decode file :=
    match Zstandard.decompress? file with
    | some content => ⟨[content].filter (!·.isEmpty), false⟩
    | none => ⟨[], true⟩

end Libraries

end Positional
