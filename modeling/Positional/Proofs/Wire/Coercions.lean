import Positional.Proofs.Document.Alike

/-!
# Which scalars come back with their content

A kind writes whatever denotes something of the kind and reads back a value of its own variant. The
content is the same but for one kind: a float takes any integer and keeps the float nearest to it.
So an integer comes back as another number exactly when no float is that integer.
-/

namespace Positional

/-- Some float is a whole number just when the nearest one is. -/
theorem Binary64.exists_toInt?_iff : (∃ x : Binary64, x.toInt? = some n) ↔ (ofInt n).toInt? = some n :=
  ⟨fun ⟨_, hx⟩ => toInt?_ofInt hx, fun h => ⟨ofInt n, h⟩⟩

namespace Value

def notNaN : Value → Bool := floatPasses fun x => !x.isNaN

theorem same_float_iff {value : Value} (hv : value.integer? = some n) (hf : ∀ x, value ≠ .float x) :
    (float x).same value = true ↔ x.toInt? = some n := by
  obtain ⟨y, hy⟩ := toBinary64?_of_integer? hv
  constructor
  · intro h
    exact (integer?_eq_of_same rfl hy (.inr hf) h).trans hv
  · intro h
    exact Kind.same_of_integer? h hv (.inr hf)

end Value

namespace Kind

/-- Every kind but float and null carries whole whatever it writes. -/
theorem bears_of_encode? {kind : Kind} (hfloat : kind ≠ .float) (hnull : kind ≠ .null)
    (h : kind.encode? value = some written) : kind.bears value = true := by
  cases kind with
  | float => exact absurd rfl hfloat
  | null => exact absurd rfl hnull
  | string | boolean | date => cases value <;> first | rfl | cases h
  | int | uint | buffer =>
    obtain ⟨_, hn, -⟩ := Option.map_eq_some_iff.mp h
    exact Option.isSome_iff_exists.mpr ⟨_, hn⟩
  | unknown name => cases value <;> cases h

theorem same_own_float (hn : value.every Value.notNaN = true)
    (h : float.encode? value = some written) : (float.own value).same value = true ↔
      ∀ n, value.integer? = some n → ∃ x : Binary64, x.toInt? = some n := by
  obtain ⟨x, hx, -⟩ := Option.map_eq_some_iff.mp h
  have hown : float.own value = .float x := by rw [own, canonical?, hx]; rfl
  rw [hown]
  rcases Value.toBinary64?_cases hx with rfl | ⟨hf, n, hv, rfl⟩
  · have hnumber : x.isNaN = false := by simpa [Value.every, Value.notNaN, Value.floatPasses] using hn
    exact ⟨fun _ n hx => ⟨x, hx⟩, fun _ => Binary64.equals_self hnumber⟩
  · rw [Value.same_float_iff hv hf, hv, ← Binary64.exists_toInt?_iff]
    simp

/-- A scalar without NaN that a kind other than null writes is read back from its bytes, whatever
follows them, up to their end. It has the same content, unless the kind is float and the value an
integer that no float is. The bytes are as many as a length can count. -/
theorem read_written_same_iff {kind : Kind} (hk : kind ≠ .null) (hn : value.every Value.notNaN = true)
    (h : kind.emit path value = .ofBytes written) (hlen : written.length < UInt64.size) (pos : Nat)
    (rest : Bytes) : ∃ back,
      kind.read.run ⟨pos, written ++ rest⟩ = (.ok back, ⟨pos + written.length, rest⟩) ∧
      (back.same value = true ↔
        (kind = .float → ∀ n, value.integer? = some n → ∃ x : Binary64, x.toInt? = some n)) := by
  have henc := emit_eq_ofBytes.mp h
  refine ⟨kind.own value, ?_, ?_⟩
  · have hreturns := returns_read (canonical?_canonical (canonical?_own henc)) (encode?_own henc)
    exact (hreturns pos rest).resolve_right fun hfails => hfails.1 hlen
  · by_cases hfloat : kind = .float
    · subst hfloat
      rw [same_own_float hn henc]
      simp
    · exact iff_of_true (same_own (bears_of_encode? hfloat hk henc)) fun heq => absurd heq hfloat

/-- The greatest power of two among the integers, and bytes of which one is given as a float. -/
theorem read_written_same_iff_power :
    float.emit ["x"] (.uint 9223372036854775808) = .ofBytes [0, 0, 0, 0, 0, 0, 224, 67] ∧
    (∃ back, float.read.run ⟨3, [0, 0, 0, 0, 0, 0, 224, 67, 9]⟩ = (.ok back, ⟨11, [9]⟩) ∧
      back.same (.uint 9223372036854775808) = true) ∧
    buffer.emit [] (.array [.float (.ofInt 255), .int 0]) = .ofBytes [2, 255, 0] ∧
    ∃ back, buffer.read.run ⟨0, [2, 255, 0, 9]⟩ = (.ok back, ⟨3, [9]⟩) ∧
      back.same (.array [.float (.ofInt 255), .int 0]) = true := by
  have hpower : float.emit ["x"] (.uint 9223372036854775808)
      = .ofBytes [0, 0, 0, 0, 0, 0, 224, 67] := by decide +kernel
  have hbytes : buffer.emit [] (.array [.float (.ofInt 255), .int 0]) = .ofBytes [2, 255, 0] := by
    decide +kernel
  obtain ⟨back, hrun, hsame⟩ := read_written_same_iff (by decide) rfl hpower (by decide) 3 [9]
  obtain ⟨content, hread, hcontent⟩ :=
    read_written_same_iff (by decide) (by decide +kernel) hbytes (by decide) 0 [9]
  refine ⟨hpower, ⟨back, hrun, hsame.mpr fun _ n hn => ?_⟩, hbytes, content, hread,
    hcontent.mpr fun heq => absurd heq (by decide)⟩
  cases hn
  exact ⟨.ofInt 9223372036854775808, by decide +kernel⟩

/-- The least integer above zero that is no float is written as the one before it. -/
theorem integer_lost :
    float.emit ["x"] (.int 9007199254740993) = .ofBytes [0, 0, 0, 0, 0, 0, 64, 67] ∧
    float.read.run ⟨0, [0, 0, 0, 0, 0, 0, 64, 67]⟩ = (.ok (.float (.ofInt 9007199254740992)), ⟨8, []⟩) ∧
    (Value.float (.ofInt 9007199254740992)).same (.int 9007199254740993) = false := by
  refine ⟨by decide +kernel, ?_, by decide +kernel⟩
  have hfloat : Binary64.ofInt 9007199254740992 = ⟨0x4340000000000000⟩ := by decide +kernel
  rw [hfloat]
  rfl

end Kind

end Positional
