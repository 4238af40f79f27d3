import Positional.Document.Basic

/-!
# Primitive encodings

The bytes of the wire's primitives: base-128 varints (least significant group first, the top bit
set on all bytes but the last), zig-zag for signed ones, fixed 8-byte little-endian words,
length-prefixed bytes and texts, and flags packed eight to a byte.
-/

namespace Positional

namespace Wire

/-- The varint of a number, in the fewest bytes. -/
def varint (n : Nat) : Bytes :=
  if n < 128 then [UInt8.ofNat n] else UInt8.ofNat (128 + n % 128) :: varint (n / 128)
termination_by n

/-- Counts the integers 0, -1, 1, -2, … from zero. -/
def zigzag (n : Int64) : UInt64 :=
  match n.toInt with
  | .ofNat k => UInt64.ofNat (2 * k)
  | .negSucc k => UInt64.ofNat (2 * k + 1)

def unzigzag (n : UInt64) : Int64 :=
  let half : Int := (n.toNat / 2 : Nat)
  Int64.ofInt (if n.toNat % 2 == 0 then half else -half - 1)

def littleEndian : (count n : Nat) → Bytes
  | 0, _ => []
  | count + 1, n => UInt8.ofNat (n % 256) :: littleEndian count (n / 256)

def ofLittleEndian : Bytes → Nat
  | [] => 0
  | byte :: rest => byte.toNat + 256 * ofLittleEndian rest

def utf8 (text : String) : Bytes :=
  text.toUTF8.data.toList

def ofUtf8? (bytes : Bytes) : Option String :=
  String.fromUTF8? ⟨bytes.toArray⟩

def svarint (n : Int64) : Bytes :=
  varint (zigzag n).toNat

def double (x : Binary64) : Bytes :=
  littleEndian 8 x.bits.toNat

def boolean (flag : Bool) : Bytes :=
  varint flag.toNat

def fixed64 (n : Int64) : Bytes :=
  littleEndian 8 n.toUInt64.toNat

def lengthPrefixed (bytes : Bytes) : Bytes :=
  varint bytes.length ++ bytes

/-- The byte of up to eight flags, the first in the lowest bit. -/
def byteOfBits : List Bool → Nat
  | [] => 0
  | bit :: rest => bit.toNat + 2 * byteOfBits rest

def packedSize (count : Nat) : Nat :=
  (count + 7) / 8

/-- Flags packed eight to a byte; the bits that no flag fills are zero. -/
def packBits (flags : List Bool) : Bytes :=
  (List.range (packedSize flags.length)).map fun j =>
    UInt8.ofNat (byteOfBits ((flags.drop (8 * j)).take 8))

def unpackBits (count : Nat) (packed : Bytes) : List Bool :=
  (List.range count).map fun i => ((packed[i / 8]?).getD 0).toNat.testBit (i % 8)

@[simp] theorem length_littleEndian (count n : Nat) : (littleEndian count n).length = count := by
  induction count generalizing n with
  | zero => rfl
  | succ count ih => simp only [littleEndian, List.length_cons, ih]

theorem ofLittleEndian_littleEndian (count n : Nat) :
    ofLittleEndian (littleEndian count n) = n % Nat.pow 256 count := by
  induction count generalizing n with
  | zero => exact (Nat.mod_one n).symm
  | succ count ih =>
    have digit : (UInt8.ofNat (n % 256)).toNat = n % 256 :=
      UInt8.toNat_ofNat_of_lt' (Nat.mod_lt n (by decide))
    have power : Nat.pow 256 (count + 1) = 256 * Nat.pow 256 count := Nat.mul_comm ..
    rw [littleEndian, ofLittleEndian, ih, digit, power, Nat.mod_mul]

theorem unzigzag_zigzag (n : Int64) : unzigzag (zigzag n) = n := by
  have low := n.le_toInt
  have high := n.toInt_lt
  have size : UInt64.size = 18446744073709551616 := rfl
  unfold zigzag
  split
  next k h =>
    rw [Int.ofNat_eq_natCast] at h
    have place : (UInt64.ofNat (2 * k)).toNat = 2 * k := UInt64.toNat_ofNat_of_lt' (by omega)
    have half : (2 * k) / 2 = k := by omega
    have even : ((2 * k) % 2 == 0) = true := by simp
    simp only [unzigzag, place, half, even, if_true]
    rw [← h, Int64.ofInt_toInt]
  next k h =>
    rw [Int.negSucc_eq] at h
    have place : (UInt64.ofNat (2 * k + 1)).toNat = 2 * k + 1 :=
      UInt64.toNat_ofNat_of_lt' (by omega)
    have half : (2 * k + 1) / 2 = k := by omega
    have odd : ((2 * k + 1) % 2 == 0) = false := by simp
    simp only [unzigzag, place, half, odd]
    rw [← Int64.ofInt_toInt (x := n), h]
    exact congrArg Int64.ofInt (by simp; omega)

theorem zigzag_unzigzag (n : UInt64) : zigzag (unzigzag n) = n := by
  have bound := n.toNat_lt
  unfold unzigzag
  by_cases parity : n.toNat % 2 = 0
  · have range : (Int64.ofInt (n.toNat / 2 : Nat)).toInt = Int.ofNat (n.toNat / 2) := by
      rw [Int64.toInt_ofInt_of_le (by omega) (by omega)]; rfl
    simp only [parity, BEq.rfl, if_true, zigzag, range]
    rw [show 2 * (n.toNat / 2) = n.toNat by omega, UInt64.ofNat_toNat]
  · have odd : (n.toNat % 2 == 0) = false := by simp [parity]
    have range : (Int64.ofInt (-((n.toNat / 2 : Nat) : Int) - 1)).toInt
        = Int.negSucc (n.toNat / 2) := by
      rw [Int64.toInt_ofInt_of_le (by omega) (by omega), Int.negSucc_eq]; omega
    simp only [odd, Bool.false_eq_true, if_false, zigzag, range]
    rw [show 2 * (n.toNat / 2) + 1 = n.toNat by omega, UInt64.ofNat_toNat]

end Wire

end Positional
