import Positional.Error
import Positional.Wire.Primitive

/-!
# Writing bytes

A writer appends to a buffer. One that fails leaves behind what it appended until then.
-/

namespace Positional

abbrev Writer := ExceptT Error (StateM Bytes)

namespace Writer

def extend (bytes : Bytes) : Writer Unit :=
  modify (· ++ bytes)

def push (byte : UInt8) : Writer Unit :=
  extend [byte]

/-- The outcome of a computation that does not write. -/
def ofExcept (outcome : Except Error α) : Writer α :=
  fun buffer => (outcome, buffer)

def varint (n : Nat) : Writer Unit :=
  if n < 128 then push (UInt8.ofNat n)
  else do
    push (UInt8.ofNat (128 + n % 128))
    varint (n / 128)
termination_by n

def svarint (n : Int64) : Writer Unit :=
  varint (Wire.zigzag n).toNat

def double (x : Binary64) : Writer Unit :=
  extend (Wire.littleEndian 8 x.bits.toNat)

def boolean (flag : Bool) : Writer Unit :=
  varint flag.toNat

def fixed64 (n : Int64) : Writer Unit :=
  extend (Wire.littleEndian 8 n.toUInt64.toNat)

def lengthPrefixed (bytes : Bytes) : Writer Unit := do
  varint bytes.length
  extend bytes

def text (text : String) : Writer Unit :=
  lengthPrefixed (Wire.utf8 text)

end Writer

end Positional
