import Positional.Error
import Positional.Wire.Primitive

/-!
# Reading bytes

A cursor stands in a buffer and a reader moves it forward. A reader that fails leaves the cursor
where its reading stopped: what was consumed stays consumed, and a read of a fixed number of bytes
consumes all of them or none.
-/

namespace Positional

/-- A place in a buffer: how many bytes were read, and the bytes that remain. -/
structure Cursor where
  pos : Nat
  rest : Bytes
deriving DecidableEq

namespace Cursor

def start (buffer : Bytes) : Cursor :=
  ⟨0, buffer⟩

def remaining (cursor : Cursor) : Nat :=
  cursor.rest.length

end Cursor

abbrev Reader := ExceptT Error (StateM Cursor)

namespace Reader

def position : Reader Nat :=
  return (← get).pos

def exact (count : Nat) : Reader Bytes := do
  let cursor ← get
  if count ≤ cursor.remaining then
    set (Cursor.mk (cursor.pos + count) (cursor.rest.drop count))
    return cursor.rest.take count
  else throw (.unexpectedEof cursor.pos count cursor.remaining)

def byte : Reader UInt8 := do
  let cursor ← get
  match cursor.rest with
  | next :: rest =>
    set (Cursor.mk (cursor.pos + 1) rest)
    return next
  | [] => throw (.unexpectedEof cursor.pos 1 0)

/-- The groups of a varint that began at `start`, when `left` bytes are still allowed. The last
allowed byte carries the top bit of a 64-bit number and ends it. -/
def varintGroups (start : Nat) : (left : Nat) → Reader Nat
  | 0 => throw (.varintOverflow start)
  | left + 1 => do
    let next ← byte
    let group := next.toNat % 128
    if left == 0 && 1 < group then throw (.varintOverflow start)
    else if next.toNat < 128 then return group
    else
      let higher ← varintGroups start left
      return group + 128 * higher

def varint : Reader UInt64 := do
  let start ← position
  return UInt64.ofNat (← varintGroups start 10)

def svarint : Reader Int64 :=
  return Wire.unzigzag (← varint)

def double : Reader Binary64 :=
  return ⟨UInt64.ofNat (Wire.ofLittleEndian (← exact 8))⟩

/-- Any varint but zero is true. -/
def boolean : Reader Bool :=
  return (← varint) != 0

def fixed64 : Reader Int64 :=
  return (UInt64.ofNat (Wire.ofLittleEndian (← exact 8))).toInt64

def lengthPrefixed : Reader Bytes := do
  let length ← varint
  exact length.toNat

def text : Reader String := do
  let content ← lengthPrefixed
  let stop ← position
  match Wire.ofUtf8? content with
  | some text => return text
  | none => throw (.invalidUtf8 (stop - content.length))

/-- What a reader yields when it is run `count` more times, after what it has yielded so far, last
first. -/
def timesAfter (reader : Reader α) (done : List α) : (count : Nat) → Reader (List α)
  | 0 => return done.reverse
  | count + 1 => do
    let item ← reader
    timesAfter reader (item :: done) count

def times (count : Nat) (reader : Reader α) : Reader (List α) :=
  timesAfter reader [] count

/-- Packed flags behind the length of their bytes. There may be more bytes than the flags need; too
few are reported at the offset of the length. -/
def packedFlags (count : Nat) : Reader (List Bool) := do
  let offset ← position
  let packed ← lengthPrefixed
  if packed.length < Wire.packedSize count then
    throw (.unexpectedEof offset (Wire.packedSize count) packed.length)
  else return Wire.unpackBits count packed

end Reader

end Positional
