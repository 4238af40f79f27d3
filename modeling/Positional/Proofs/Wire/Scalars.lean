import Positional.Proofs.Wire.Primitives
import Positional.Wire.Scalar

/-!
# Scalars read back

A kind carries a value in the kind's own variant: that is what reading gives back
(`Kind.canonical?`), and writing it again gives the same bytes.
-/

namespace Positional

namespace Value

@[simp] theorem toInt64?_int (n : Int64) : (int n).toInt64? = some n := by
  rw [toInt64?, integer?, Option.bind_some, int64?_eq_some]

@[simp] theorem toUInt64?_uint (n : UInt64) : (uint n).toUInt64? = some n := by
  rw [toUInt64?, integer?, Option.bind_some, uint64?_eq_some]

@[simp] theorem toBinary64?_float (x : Binary64) : (float x).toBinary64? = some x := rfl

@[simp] theorem toBytes?_bytes (content : Bytes) : (bytes content).toBytes? = some content := rfl

end Value

namespace Kind

/-- The value of the kind's own variant that stands for a value on the wire. -/
def canonical? : Kind → Value → Option Value
  | string, .text content => some (.text content)
  | float, value => value.toBinary64?.map .float
  | int, value => value.toInt64?.map .int
  | uint, value => value.toUInt64?.map .uint
  | boolean, .bool flag => some (.bool flag)
  | date, .date ticks => some (.date ticks)
  | date, .int ticks => some (.date ticks)
  | buffer, value => value.toBytes?.map .bytes
  | null, _ => some .null
  | _, _ => none

theorem encode?_eq (kind : Kind) (value : Value) :
    kind.encode? value = (kind.canonical? value).bind kind.encode? := by
  cases kind with
  | string => cases value <;> rfl
  | float => cases h : value.toBinary64? <;> simp [encode?, canonical?, h]
  | int => cases h : value.toInt64? <;> simp [encode?, canonical?, h]
  | uint =>
    cases h : value.toUInt64? with
    | none =>
      rw [encode?, canonical?, h]
      rfl
    | some n =>
      rw [encode?, canonical?, h, Option.map_some, Option.map_some, Option.bind_some, encode?,
        Value.toUInt64?_uint, Option.map_some]
  | boolean => cases value <;> rfl
  | date => cases value <;> rfl
  | buffer => cases h : value.toBytes? <;> simp [encode?, canonical?, h]
  | null => rfl
  | unknown name => cases value <;> rfl

theorem canonical?_canonical {kind : Kind} (h : kind.canonical? value = some own) :
    kind.canonical? own = some own := by
  cases kind with
  | string => cases value <;> cases h; rfl
  | float => obtain ⟨x, -, rfl⟩ := Option.map_eq_some_iff.mp h; simp [canonical?]
  | int => obtain ⟨n, -, rfl⟩ := Option.map_eq_some_iff.mp h; simp [canonical?]
  | uint => obtain ⟨n, -, rfl⟩ := Option.map_eq_some_iff.mp h; simp [canonical?]
  | boolean => cases value <;> cases h; rfl
  | date => cases value <;> cases h <;> rfl
  | buffer => obtain ⟨content, -, rfl⟩ := Option.map_eq_some_iff.mp h; simp [canonical?]
  | null => cases h; rfl
  | unknown name => cases value <;> cases h

theorem emit_eq_ofBytes {kind : Kind} :
    kind.emit path value = .ofBytes written ↔ kind.encode? value = some written := by
  cases kind with
  | unknown name => simp [emit, encode?]
  | _ =>
    simp only [emit]
    split
    · rename_i h
      simp [h]
    · rename_i h
      simp [h]

-- ---------------------------------------------------------------------------
-- Reading
-- ---------------------------------------------------------------------------

/-- A canonical form comes back as it is. -/
theorem returns_read {kind : Kind} (hc : kind.canonical? own = some own)
    (he : kind.encode? own = some written) :
    Reader.Returns (written.length < UInt64.size) kind.read written own := by
  cases kind with
  | string =>
    cases own <;> cases he
    rename_i content
    refine ((Reader.returns_text content).map Value.text).mono fun hlen => ?_
    rw [Wire.lengthPrefixed, List.length_append] at hlen
    omega
  | float =>
    obtain ⟨x, -, rfl⟩ := Option.map_eq_some_iff.mp hc
    cases he
    exact ((Reader.returns_double x).map Value.float).mono fun _ => trivial
  | int =>
    obtain ⟨n, -, rfl⟩ := Option.map_eq_some_iff.mp hc
    rw [encode?, Value.toInt64?_int] at he
    cases he
    exact ((Reader.returns_svarint n).map Value.int).mono fun _ => trivial
  | uint =>
    obtain ⟨n, -, rfl⟩ := Option.map_eq_some_iff.mp hc
    rw [encode?, Value.toUInt64?_uint] at he
    cases he
    exact ((Reader.returns_varint_toNat n).map Value.uint).mono fun _ => trivial
  | boolean =>
    cases own <;> cases he
    rename_i flag
    exact ((Reader.returns_boolean flag).map Value.bool).mono fun _ => trivial
  | date =>
    cases own <;> cases hc
    cases he
    rename_i ticks
    exact ((Reader.returns_fixed64 ticks).map Value.date).mono fun _ => trivial
  | buffer =>
    obtain ⟨content, -, rfl⟩ := Option.map_eq_some_iff.mp hc
    cases he
    refine ((Reader.returns_lengthPrefixed content).map Value.bytes).mono fun hlen => ?_
    rw [Wire.lengthPrefixed, List.length_append] at hlen
    omega
  | null =>
    cases hc
    cases he
    exact (Reader.Returns.pure Value.null).mono fun _ => trivial
  | unknown name => cases own <;> cases hc

theorem read_of_covers {reader : Reader α} {write : α → Bytes} (f : α → Value) (kind : Kind)
    (hr : kind.read = do return f (← reader)) (hw : Reader.Covers reader write)
    (hc : ∀ a, kind.canonical? (f a) = some (f a))
    (he : ∀ a, kind.encode? (f a) = some (write a))
    (h : kind.read.run cursor = (.ok value, last)) :
    kind.canonical? value = some value ∧ ∃ written, kind.encode? value = some written ∧
      cursor.pos + written.length ≤ last.pos := by
  rw [hr] at h
  obtain ⟨a, after, hread, h⟩ := Reader.bind_ok.mp h
  obtain ⟨rfl, rfl⟩ := Reader.pure_ok.mp h
  exact ⟨hc a, write a, he a, hw _ _ _ hread⟩

/-- Whatever is read is canonical, and writing it anew takes no more bytes. -/
theorem read_ok {kind : Kind} (h : kind.read.run cursor = (.ok value, last)) :
    kind.canonical? value = some value ∧ ∃ written, kind.encode? value = some written ∧
      cursor.pos + written.length ≤ last.pos := by
  cases kind with
  | string => exact read_of_covers .text _ rfl Reader.covers_text (fun _ => rfl) (fun _ => rfl) h
  | float => exact read_of_covers .float _ rfl Reader.covers_double (fun _ => rfl) (fun _ => rfl) h
  | int =>
    exact read_of_covers .int _ rfl Reader.covers_svarint (by simp [canonical?])
      (by simp [encode?]) h
  | uint =>
    exact read_of_covers .uint _ rfl Reader.covers_varint (by simp [canonical?])
      (by simp [encode?]) h
  | boolean => exact read_of_covers .bool _ rfl Reader.covers_boolean (fun _ => rfl) (fun _ => rfl) h
  | date => exact read_of_covers .date _ rfl Reader.covers_fixed64 (fun _ => rfl) (fun _ => rfl) h
  | buffer =>
    exact read_of_covers .bytes _ rfl Reader.covers_lengthPrefixed (fun _ => rfl) (fun _ => rfl) h
  | null =>
    obtain ⟨rfl, rfl⟩ := Reader.pure_ok.mp h
    exact ⟨rfl, [], rfl, by simp⟩
  | unknown name => exact absurd h Reader.throw_ok

end Kind

end Positional
