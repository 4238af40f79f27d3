import Positional.Command.Run
import Positional.Proofs.Zstandard

/-!
# Packed files

A file that gives a content is unpacked to it, unless it holds more than a compressed file may
(`Libraries.unpack_eq`). `Libraries.Restores` says that what is compressed is decoded to what it was;
frames of stored blocks are one way to have it so.
-/

namespace Positional

namespace Decoding

/-- The decoder hands out a content to its end. -/
structure Gives (decoding : Decoding) (content : Bytes) : Prop where
  done : decoding.failed = false
  nonempty : ∀ piece ∈ decoding.pieces, piece ≠ []
  pieces : decoding.pieces.flatten = content

theorem collect_flatten {pieces : List Bytes} {collected : Bytes}
    (h : ∀ piece ∈ pieces, piece ≠ []) (hfits : collected.length ≤ maxDecompressed) :
    collect false collected pieces =
      if (collected ++ pieces.flatten).length ≤ maxDecompressed then .ok (collected ++ pieces.flatten)
      else .error .tooLarge := by
  induction pieces generalizing collected with
  | nil =>
    rw [List.flatten_nil, List.append_nil, if_pos hfits]
    rfl
  | cons piece rest ih =>
    obtain ⟨hpiece, hrest⟩ := List.forall_mem_cons.mp h
    rw [collect, if_neg (by simpa using hpiece), List.flatten_cons, ← List.append_assoc]
    by_cases hlarge : maxDecompressed < collected.length + piece.length
    · rw [if_pos hlarge, if_neg]
      simp only [List.length_append]
      omega
    · rw [if_neg hlarge]
      exact ih hrest (by rw [List.length_append]; omega)

end Decoding

namespace Libraries

variable {libraries : Libraries} {file content : Bytes}

/-- Whatever can be compressed is decoded from its file. -/
def Restores (libraries : Libraries) : Prop :=
  ∀ content file, libraries.compress? content = some file → (libraries.decode file).Gives content

theorem compress?_of_pack (h : libraries.pack true content = .ok file) :
    libraries.compress? content = some file := by
  rw [pack, if_pos rfl] at h
  split at h
  · rename_i hfile
    cases h
    exact hfile
  · cases h

theorem unpack_eq (h : (libraries.decode file).Gives content) : libraries.unpack true file =
    if content.length ≤ maxDecompressed then .ok content else .error .tooLarge := by
  obtain ⟨hdone, hnonempty, rfl⟩ := h
  have hcollect := @Decoding.collect_flatten _ [] hnonempty (Nat.zero_le maxDecompressed)
  rw [List.nil_append] at hcollect
  rw [unpack, if_pos rfl]
  simp only [hdone, hcollect]

theorem compress?_standard : standard.compress? content =
    if content.length < UInt64.size then some (Zstandard.compress content) else none := rfl

theorem decode_standard (h : Zstandard.decompress? file = some content) :
    standard.decode file = ⟨[content].filter (!·.isEmpty), false⟩ := by
  simp only [standard, h]

theorem restores_standard : standard.Restores := by
  intro content file h
  rw [compress?_standard] at h
  split at h
  · rename_i hsize
    cases h
    rw [decode_standard (Zstandard.decompress?_compress hsize)]
    refine ⟨rfl, fun piece hp => by simpa using (List.mem_filter.mp hp).2, ?_⟩
    cases content <;> simp
  · cases h

end Libraries

end Positional
