import Positional.Zstandard

/-!
# Frames give back their content

The stored blocks of a content put together are the content: the blocks before a place make up the
content before it, and the block there is read behind them. The size in the header of the frame is
the one that the last block completes, for every content whose size eight bytes can hold.
-/

namespace Positional

namespace Zstandard

def storedBlock (last : Bool) (block : Bytes) : Bytes :=
  blockHeader last 0 block.length ++ block

def blockAt (content : Bytes) (i : Nat) : Bytes :=
  (content.drop (maxBlock * i)).take maxBlock

def blockCount (content : Bytes) : Nat :=
  max 1 ((content.length + maxBlock - 1) / maxBlock)

theorem storedBlocks_eq (content : Bytes) : storedBlocks content =
    (List.range (blockCount content)).flatMap fun i =>
      storedBlock (i + 1 == blockCount content) (blockAt content i) := rfl

theorem length_blockAt_le (content : Bytes) (i : Nat) : (blockAt content i).length ≤ maxBlock :=
  List.length_take_le ..

theorem take_append_blockAt (content : Bytes) (i : Nat) :
    content.take (maxBlock * i) ++ blockAt content i = content.take (maxBlock * (i + 1)) := by
  rw [Nat.mul_succ, List.take_add]
  rfl

theorem take_blockCount (content : Bytes) : content.take (maxBlock * blockCount content) = content := by
  refine List.take_of_length_le ?_
  have hmax : maxBlock = 131072 := rfl
  rw [blockCount, hmax]
  omega

theorem exists_blockHeader (last : Bool) {size : Nat} (h : size ≤ maxBlock) : ∃ a b c,
    blockHeader last 0 size = [a, b, c] ∧ Wire.ofLittleEndian [a, b, c] = last.toNat + 8 * size := by
  have hmax : maxBlock = 131072 := rfl
  have hpower : Nat.pow 256 3 = 16777216 := rfl
  have hlast := last.toNat_lt
  refine ⟨_, _, _, rfl, ?_⟩
  have hheader := Wire.ofLittleEndian_littleEndian 3 (last.toNat + 2 * 0 + 8 * size)
  rw [hpower, Nat.mod_eq_of_lt (by omega), Nat.mul_zero, Nat.add_zero] at hheader
  exact hheader

theorem read_storedBlock {block : Bytes} (h : block.length ≤ maxBlock) (size : Option Nat)
    (content rest : Bytes) (last : Bool) :
    read (.block size content) (storedBlock last block ++ rest) =
      if last then
        if size.all (· == (content ++ block).length) then
          (read (.frame false) rest).map (content ++ block ++ ·)
        else none
      else read (.block size (content ++ block)) rest := by
  obtain ⟨a, b, c, habc, hheader⟩ := exists_blockHeader last h
  have hbytes : storedBlock last block ++ rest = a :: b :: c :: (block ++ rest) := by
    rw [storedBlock, habc]
    rfl
  have hlast := last.toNat_lt
  have hlength : (last.toNat + 8 * block.length) / 8 = block.length := by omega
  have hform : (last.toNat + 8 * block.length) / 2 % 4 = 0 := by omega
  have hparity : (last.toNat + 8 * block.length) % 2 = last.toNat := by omega
  rw [hbytes, read]
  simp only [hheader, hlength, hform, hparity]
  have hfits : ¬ (block ++ rest).length < block.length := by simp
  simp only [Nat.not_lt.mpr h, hfits, BEq.rfl, if_true, List.take_left, List.drop_left, decide_false,
    Bool.or_self, Nat.not_lt_zero, Bool.false_eq_true, if_false]
  cases last <;> rfl

theorem read_blocks (content rest : Bytes) {i left : Nat} (h : i + (left + 1) = blockCount content) :
    read (.block (some content.length) (content.take (maxBlock * i)))
      (((List.range' i (left + 1)).flatMap fun i =>
        storedBlock (i + 1 == blockCount content) (blockAt content i)) ++ rest) =
      (read (.frame false) rest).map (content ++ ·) := by
  induction left generalizing i with
  | zero =>
    have hend : i + 1 = blockCount content := by omega
    have hlast : (i + 1 == blockCount content) = true := beq_iff_eq.mpr hend
    rw [List.range'_succ, List.range'_zero, List.flatMap_singleton,
      read_storedBlock (length_blockAt_le content i), hlast, take_append_blockAt, hend, take_blockCount]
    simp
  | succ left ih =>
    have hlast : (i + 1 == blockCount content) = false := beq_eq_false_iff_ne.mpr (by omega)
    rw [List.range'_succ, List.flatMap_cons, List.append_assoc,
      read_storedBlock (length_blockAt_le content i), hlast, take_append_blockAt,
      if_neg Bool.false_ne_true]
    exact ih (by omega)

theorem read_frame {first : Bool} {rest : Bytes} {fields : HeaderFields} (hd : headerFields? descriptor = some fields)
    (h : fields.skipped + fields.sizeBytes ≤ rest.length) :
    read (.frame first) (0x28 :: 0xb5 :: 0x2f :: 0xfd :: descriptor :: rest) =
      read (.block (contentSize? ((rest.drop fields.skipped).take fields.sizeBytes)) [])
        (rest.drop (fields.skipped + fields.sizeBytes)) := by
  rw [read, hd, Option.bind_eq_bind, Option.bind_some, if_neg (Nat.not_lt.mpr h)]

/-- A frame gives back its content. -/
theorem decompress?_compress {content : Bytes} (h : content.length < UInt64.size) :
    decompress? (compress content) = some content := by
  have hfield := Wire.length_littleEndian 8 content.length
  have hsize : contentSize? (Wire.littleEndian 8 content.length) = some content.length := by
    rw [contentSize?, hfield]
    exact congrArg some ((Wire.ofLittleEndian_littleEndian 8 content.length).trans (Nat.mod_eq_of_lt h))
  obtain ⟨rest, hrest⟩ : ∃ rest, rest = Wire.littleEndian 8 content.length ++ storedBlocks content :=
    ⟨_, rfl⟩
  have hcompress : compress content = 0x28 :: 0xb5 :: 0x2f :: 0xfd :: 0xe0 :: rest := by
    rw [hrest]
    rfl
  have hfits : 0 + 8 ≤ rest.length := by
    rw [hrest, List.length_append, hfield]
    omega
  have hframe : read (.frame true) (0x28 :: 0xb5 :: 0x2f :: 0xfd :: 0xe0 :: rest) =
      read (.block (contentSize? (rest.take 8)) []) (rest.drop 8) :=
    @read_frame 0xe0 true rest ⟨0, 8⟩ rfl hfits
  have hcount : blockCount content = blockCount content - 1 + 1 := by
    have hpos : 0 < blockCount content := Nat.le_max_left ..
    omega
  have hblocks := @read_blocks content [] 0 (blockCount content - 1) (by omega)
  rw [← hcount, List.append_nil, Nat.mul_zero, List.take_zero] at hblocks
  rw [decompress?, hcompress, hframe, hrest, List.take_left' hfield, List.drop_left' hfield, hsize,
    storedBlocks_eq, List.range_eq_range', hblocks]
  simp [read]

end Zstandard

end Positional
