import Positional.Wire.Primitive

/-!
# Zstandard frames

Buffers can be wrapped in frames of the Zstandard format. Frames are written with stored blocks;
they are read if their blocks are stored or a repeated byte, and they carry neither a dictionary nor
a checksum.
-/

namespace Positional

namespace Zstandard

def magic : Bytes :=
  [0x28, 0xb5, 0x2f, 0xfd]

def maxBlock : Nat :=
  131072

/-- The header of a block: its size above two bits for its form and one for the last block. -/
def blockHeader (last : Bool) (form size : Nat) : Bytes :=
  Wire.littleEndian 3 (last.toNat + 2 * form + 8 * size)

/-- The stored blocks of a content; an empty one has one empty block. -/
def storedBlocks (content : Bytes) : Bytes :=
  let count := max 1 ((content.length + maxBlock - 1) / maxBlock)
  (List.range count).flatMap fun i =>
    let block := (content.drop (maxBlock * i)).take maxBlock
    blockHeader (i + 1 == count) 0 block.length ++ block

def compress (content : Bytes) : Bytes :=
  magic ++ 0xe0 :: Wire.littleEndian 8 content.length ++ storedBlocks content

structure HeaderFields where
  /-- How many bytes stand before the content size. -/
  skipped : Nat
  /-- How many bytes the content size has; none if it is not given. -/
  sizeBytes : Nat

/-- The fields announced by the descriptor of a frame. Dictionaries, checksums and the reserved bit
are refused. -/
def headerFields? (descriptor : UInt8) : Option HeaderFields :=
  let bits := descriptor.toNat
  if bits % 16 != 0 then none
  else
    let oneSegment := bits / 32 % 2 == 1
    let skipped := if oneSegment then 0 else 1
    match bits / 64 with
    | 0 => some ⟨skipped, if oneSegment then 1 else 0⟩
    | 1 => some ⟨skipped, 2⟩
    | 2 => some ⟨skipped, 4⟩
    | _ => some ⟨skipped, 8⟩

/-- The content size in a field; two bytes count from 256. -/
def contentSize? (field : Bytes) : Option Nat :=
  match field.length with
  | 0 => none
  | 2 => some (Wire.ofLittleEndian field + 256)
  | _ => some (Wire.ofLittleEndian field)

inductive Place where
  /-- A frame, or the end unless no frame was read. -/
  | frame (first : Bool)
  /-- A block of a frame that announced this size, if any, and has given this content. -/
  | block (size : Option Nat) (content : Bytes)

/-- The content of the frames in the bytes. A block of form 0 is stored, one of form 1 repeats its
only byte; the last block completes the size that was announced. -/
def read : Place → Bytes → Option Bytes
  | .frame first, [] => if first then none else some []
  | .frame _, 0x28 :: 0xb5 :: 0x2f :: 0xfd :: descriptor :: rest => do
    let fields ← headerFields? descriptor
    if rest.length < fields.skipped + fields.sizeBytes then none
    else
      let field := (rest.drop fields.skipped).take fields.sizeBytes
      read (.block (contentSize? field) []) (rest.drop (fields.skipped + fields.sizeBytes))
  | .block size content, a :: b :: c :: rest =>
    let header := Wire.ofLittleEndian [a, b, c]
    let length := header / 8
    let form := header / 2 % 4
    let width := if form == 0 then length else 1
    if maxBlock < length || 1 < form || rest.length < width then none
    else
      let extended := content ++
        (if form == 0 then rest.take length else List.replicate length (rest.headD 0))
      if header % 2 == 0 then read (.block size extended) (rest.drop width)
      else if size.all (· == extended.length) then
        (read (.frame false) (rest.drop width)).map (extended ++ ·)
      else none
  | _, _ => none
termination_by _ bytes => bytes.length
decreasing_by all_goals (simp only [List.length_cons, List.length_drop]; omega)

def decompress? (bytes : Bytes) : Option Bytes :=
  read (.frame true) bytes

end Zstandard

end Positional
