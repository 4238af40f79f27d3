import Positional.Wire.Kind
import Positional.Wire.Reader
import Positional.Wire.Emission
import Positional.Wire.Writer

/-!
# Scalars by kind

How each kind of scalar is written and read. Writing accepts every value that denotes something of
the kind, such as an integral float for an integer; reading always yields the kind's own variant.
-/

namespace Positional

namespace Value

/-- The bytes that a value denotes: its own, or those of an array of numbers below 256. -/
def toBytes? : Value → Option Bytes
  | .bytes content => some content
  | .array items => items.mapM toByte?
  | _ => none

end Value

namespace Kind

/-- The bytes of a value under a known kind, if the kind can carry it. -/
def encode? : Kind → Value → Option Bytes
  | string, .text content => some (Wire.lengthPrefixed (Wire.utf8 content))
  | float, value => value.toBinary64?.map Wire.double
  | int, value => value.toInt64?.map Wire.svarint
  | uint, value => value.toUInt64?.map fun n => Wire.varint n.toNat
  | boolean, .bool flag => some (Wire.boolean flag)
  | date, .date ticks => some (Wire.fixed64 ticks)
  | date, .int ticks => some (Wire.fixed64 ticks)
  | buffer, value => value.toBytes?.map Wire.lengthPrefixed
  | null, _ => some []
  | _, _ => none

/-- Appends a value under a kind; the path is for the report. -/
def put (kind : Kind) (path : Path) (value : Value) : Writer Unit :=
  match kind, value with
  | string, .text content => Writer.text content
  | float, value =>
    match value.toBinary64? with
    | some x => Writer.double x
    | none => mismatch
  | int, value =>
    match value.toInt64? with
    | some n => Writer.svarint n
    | none => mismatch
  | uint, value =>
    match value.toUInt64? with
    | some n => Writer.varint n.toNat
    | none => mismatch
  | boolean, .bool flag => Writer.boolean flag
  | date, .date ticks => Writer.fixed64 ticks
  | date, .int ticks => Writer.fixed64 ticks
  | buffer, value =>
    match value.toBytes? with
    | some content => Writer.lengthPrefixed content
    | none => mismatch
  | null, _ => return ()
  | unknown name, _ => throw (.unknownKind name)
  | _, _ => mismatch
where
  mismatch : Writer Unit := throw (.typeMismatch path kind.name value.variantName)

def emit (kind : Kind) (path : Path) (value : Value) : Emission :=
  match kind with
  | unknown name => .fail (.unknownKind name)
  | kind =>
    match kind.encode? value with
    | some bytes => .ofBytes bytes
    | none => .fail (.typeMismatch path kind.name value.variantName)

def read : Kind → Reader Value
  | string => return .text (← Reader.text)
  | float => return .float (← Reader.double)
  | int => return .int (← Reader.svarint)
  | uint => return .uint (← Reader.varint)
  | boolean => return .bool (← Reader.boolean)
  | date => return .date (← Reader.fixed64)
  | buffer => return .bytes (← Reader.lengthPrefixed)
  | null => return .null
  | unknown name => throw (.unknownKind name)

end Kind

end Positional
