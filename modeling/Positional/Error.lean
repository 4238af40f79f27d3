import Positional.Document.Path
import Positional.Text.Quoted

/-!
# Failures

What can go wrong while a schema is compiled and a document is written or read, as causes with the
facts that the report names. The wording is in one place, `Error.message`.
-/

namespace Positional

inductive Error where
  | unsupportedSchema (path : Path)
  | unsupportedLiteral
  | unsupportedEffect
  /-- The tags of a union share no kind. -/
  | undecidableDiscriminator (path : Path)
  /-- A union member that is no object with a literal or enumerated tag. -/
  | invalidUnionMember (path : Path) (discriminator : String)
  | unknownKind (name : String)
  | missingValue (path : Path)
  | typeMismatch (path : Path) (expected got : String)
  | unexpectedEof (offset need remaining : Nat)
  /-- A varint beyond ten bytes or 64 bits, at the offset of its first byte. -/
  | varintOverflow (offset : Nat)
  /-- A text whose bytes are not UTF-8, at the offset of the first of them. -/
  | invalidUtf8 (offset : Nat)
  | arrayTooLarge (count limit : Nat)
  /-- Arrays of objects are nested deeper than allowed. -/
  | depthExceeded (limit : Nat)
  | trailingBytes (leftover : Nat)
deriving DecidableEq

namespace Error

def message : Error → String
  | unsupportedSchema path => s!"unsupported schema at: {path.render}"
  | unsupportedLiteral => "unsupported literal value"
  | unsupportedEffect => "unsupported effect"
  | undecidableDiscriminator path =>
    s!"could not determine the type of the discriminator at: {path.render}"
  | invalidUnionMember path discriminator =>
    s!"invalid union member at: {path.render} (discriminator {quoted discriminator})"
  | unknownKind name => s!"unknown block kind: {name}"
  | missingValue path => s!"missing value at: {path.render}"
  | typeMismatch path expected got =>
    s!"type mismatch at: {path.render}: expected {expected}, got {got}"
  | unexpectedEof offset need remaining =>
    s!"unexpected eof at offset {offset}, need {need} bytes, remaining {remaining}"
  | varintOverflow offset => s!"varint overflow at offset {offset}"
  | invalidUtf8 offset => s!"invalid utf-8 string at offset {offset}"
  | arrayTooLarge count limit => s!"decode array too large: count={count}, max={limit}"
  | depthExceeded limit => s!"decode depth exceeded (max={limit})"
  | trailingBytes leftover => s!"trailing bytes after decode: leftover={leftover}"

end Error

end Positional
