import Positional.Proofs.Codec.Delimited
import Positional.Proofs.Program.Appending
import Positional.Proofs.Program.Forward
import Positional.Proofs.Program.Normal
import Positional.Proofs.Program.Reading
import Positional.Proofs.Schema.Anchors

/-!
# Canonical encodings

Decoding what a program wrote gives the echo of the document, whatever else the document held. From
this, both ways round: bytes that come from a document are the bytes of its echo, and bytes that
decode at all decode to a document whose own bytes, no longer than them, decode to it again.
-/

namespace Positional

namespace Program

theorem encode_ok {program : Program} :
    program.encode x = .ok bytes ↔ Block.emitAll program x = .ofBytes bytes := by
  rw [encode_eq, Emission.toExcept]
  rcases Block.emitAll program x with ⟨written, failure⟩
  cases failure <;> simp [Emission.ofBytes]

theorem decode_ok {program : Program} (h : program.decode options buffer = .ok y) :
    ∃ writes last, (Block.readAll options.toLimits program 0).run (Cursor.start buffer)
      = (.ok writes, last) ∧ y = .ofWrites writes := by
  rcases hrun : (program.read options (.object [])).run (Cursor.start buffer) with ⟨outcome, last⟩
  rw [decode, hrun] at h
  subst h
  obtain ⟨writes, hread, -, rfl⟩ := read_ok.mp hrun
  exact ⟨writes, last, hread, rfl⟩

/-- Reading what was written for a document gives its echo and leaves nothing, strict or not. -/
theorem read_written {program : Program} (options : DecodeOptions) (hl : ∀ block ∈ program, Laid rule block)
    (hw : program.encode x = .ok bytes) (hlen : bytes.length < UInt64.size)
    (hin : Block.WithinAll options.toLimits program 0 x) :
    (program.read options (.object [])).run (Cursor.start bytes)
      = (.ok (.ofWrites (Block.echoAll program x)), ⟨bytes.length, []⟩) := by
  have hreturns : Reader.Returns _ (Block.readAll options.toLimits program 0) bytes _ :=
    Laid.returns_readAll hl (encode_ok.mp hw)
  rcases hreturns 0 [] with hrun | ⟨hn, -⟩
  · rw [List.append_nil, Nat.zero_add] at hrun
    exact read_ok.mpr ⟨_, hrun, fun _ => rfl, rfl⟩
  · exact absurd ⟨hlen, hin⟩ hn

theorem eq_echo_of_decode {program : Program} (hl : ∀ block ∈ program, Laid rule block)
    (hw : program.encode x = .ok bytes) (hy : program.decode options bytes = .ok y) :
    y = .ofWrites (Block.echoAll program x) := by
  obtain ⟨writes, last, hread, rfl⟩ := decode_ok hy
  have hreturns : Reader.Returns _ (Block.readAll options.toLimits program 0) bytes _ :=
    Laid.returns_readAll hl (encode_ok.mp hw)
  rcases hreturns 0 [] with hok | ⟨-, error, after, herror⟩
  · rw [List.append_nil] at hok
    cases hread.symm.trans hok
    rfl
  · rw [List.append_nil] at herror
    cases hread.symm.trans herror

theorem decode_eq {program : Program}
    (h : (program.read options (.object [])).run (Cursor.start bytes) = (result, cursor)) :
    program.decode options bytes = result := by
  rw [decode, h]

end Program

namespace Schema

/-- Encoding what was decoded from a document's bytes gives the same bytes. The document need not
conform to the schema; it is enough that it can be encoded and is within the decoder's limits. -/
theorem encode_decode_encode {schema : Schema} (options : DecodeOptions)
    (hc : schema.compile = .ok program)
    (hn : schema.wellNamed = true)
    (ha : schema.eachSlot (fun _ inner => inner.anchored) [] = true)
    (hx : program.encode x = .ok bytes) (hlen : bytes.length < UInt64.size)
    (hin : Block.WithinAll options.toLimits program 0 x) :
    ∃ y, program.decode options bytes = .ok y ∧ program.encode y = .ok bytes := by
  obtain ⟨frame, hf, rfl⟩ := compile_ok hc
  have hw := hf.wellLaid hn ha fun _ _ _ h hn ha _ => h.anchored hn ha
  refine ⟨_, Program.decode_eq (Program.read_written options hw.laid hx hlen hin), ?_⟩
  rw [Program.encode_ok] at hx ⊢
  exact Block.emitAll_rebuilt hw.spread (fun block _ => Value.blank_empty _) hx hw.laid
    fun block hb => (hw.laid block hb).rebuilds x

theorem encode_decode_encode_items : ∃ program y,
    (object [("items", array (object [("n", number [.int])])), ("note", optional string)]).compile
      = .ok program ∧ program.decode .exact [1, 14, 2] = .ok y ∧ program.encode y = .ok [1, 14, 2] := by
  have hc : (object [("items", array (object [("n", number [.int])])),
      ("note", optional string)]).compile = .ok [.array .object [.primitive .int ["n"]] ["items"],
        .ofSlot [.primitive .string ["note"]] ["note"]] := rfl
  -- seven as a float, and a field that the schema does not know
  have hx : Program.encode [.array .object [.primitive .int ["n"]] ["items"],
      .ofSlot [.primitive .string ["note"]] ["note"]]
      (.object [("items", .array [.object [("n", .float ⟨0x401c000000000000⟩)]]), ("note", .null),
        ("more", .bool true)]) = .ok [1, 14, 2] :=
    Program.encode_ok.mpr (by decide +kernel)
  obtain ⟨y, hy, hagain⟩ := encode_decode_encode .exact hc rfl rfl hx (by decide)
    ⟨⟨⟨by decide, by decide⟩, by decide, fun _ _ => ⟨trivial, trivial⟩⟩, ⟨trivial, trivial⟩, trivial⟩
  exact ⟨_, y, hc, hy, hagain⟩

/-- What any bytes decode to is encoded in no more bytes, and those decode to the very same
document. -/
theorem decode_encode_decode {schema : Schema} (hc : schema.compile = .ok program)
    (hn : schema.wellNamed = true)
    (hs : schema.eachSlot (fun path _ => !path.isEmpty) [] = true)
    (hlen : buffer.length < UInt64.size)
    (h : (program.read options (.object [])).run (Cursor.start buffer) = (.ok v, cursor)) :
    ∃ bytes, program.encode v = .ok bytes ∧ bytes.length ≤ cursor.pos ∧
      (program.read options (.object [])).run (Cursor.start bytes) = (.ok v, ⟨bytes.length, []⟩) := by
  obtain ⟨frame, hf, rfl⟩ := compile_ok hc
  have hw : WellLaid OffRoot [] frame.blocks :=
    hf.wellLaid hn hs fun _ _ _ _ _ hp _ => by simpa [OffRoot] using hp
  rw [Program.read] at h
  obtain ⟨writes, mid, hread, h⟩ := Reader.bind_ok.mp h
  obtain ⟨_, _, hget, h⟩ := Reader.bind_ok.mp h
  obtain ⟨rfl, rfl⟩ := Reader.get_ok.mp hget
  split at h
  · exact absurd h Reader.throw_ok
  · obtain ⟨rfl, rfl⟩ := Reader.pure_ok.mp h
    obtain ⟨hecho, ⟨bytes, hbytes, hle⟩, hwithin⟩ := Laid.readAll_ok hw.laid hw.spread
      (fun block _ => Value.blank_empty _) hread
    have hend := (Block.forward_readAll _ _ _).pos_add_remaining hread
    simp only [Cursor.start, Cursor.remaining, Nat.zero_add] at hle hend
    have hencode := Program.encode_ok.mpr hbytes
    have hagain := Program.read_written options hw.laid hencode (by omega) hwithin
    rw [hecho] at hagain
    exact ⟨bytes, hencode, hle, hagain⟩

theorem decode_encode_decode_note : ∃ program bytes,
    (object [("on", boolean), ("note", optional null)]).compile = .ok program ∧
      program.encode (.object [("on", .bool true), ("note", .null)]) = .ok bytes ∧ bytes.length ≤ 3 ∧
      (program.read {} (.object [])).run (Cursor.start bytes)
        = (.ok (.object [("on", .bool true), ("note", .null)]), ⟨bytes.length, []⟩) := by
  have hc : (object [("on", boolean), ("note", optional null)]).compile
      = .ok [.primitive .boolean ["on"], .ofSlot [.primitive .null ["note"]] ["note"]] := rfl
  -- an over-long two is true, and what is present is null
  have h : (Program.read [.primitive .boolean ["on"], .ofSlot [.primitive .null ["note"]] ["note"]]
      {} (.object [])).run (Cursor.start [130, 0, 1, 9])
      = (.ok (.object [("on", .bool true), ("note", .null)]), ⟨3, [9]⟩) := rfl
  obtain ⟨bytes, hagain⟩ := decode_encode_decode hc rfl rfl (by decide) h
  exact ⟨_, bytes, hc, hagain⟩

end Schema

end Positional
