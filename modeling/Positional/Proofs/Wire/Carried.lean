import Positional.Document.Equality
import Positional.Proofs.Binary64.Whole
import Positional.Proofs.Program.Emitting

/-!
# Values that a kind carries whole

Writing accepts more than it can give back: a float kind rounds integers, a NaN is not itself, and a
null kind takes anything. `Kind.bears` leaves these out; what it accepts comes back with the same
content.
-/

namespace Positional

theorem Binary64.equals_self {x : Binary64} (h : x.isNaN = false) : x.equals x = true := by
  simp [equals, h]

namespace Kind

/-- Whether a kind carries a value without loss: a number as the kind's own, a date as its ticks,
bytes as an array of numbers. -/
def bears : Kind → Value → Bool
  | string, .text _ => true
  | boolean, .bool _ => true
  | float, .float x => !x.isNaN
  | float, .int n => (Binary64.ofInt n.toInt).toInt? == some n.toInt
  | float, .uint n => (Binary64.ofInt n.toNat).toInt? == some (n.toNat : Int)
  | int, value => value.toInt64?.isSome
  | uint, value => value.toUInt64?.isSome
  | date, .date _ | date, .int _ => true
  | buffer, value => value.toBytes?.isSome
  | null, .null => true
  | _, _ => false

theorem encode?_of_bears {kind : Kind} (h : kind.bears value = true) :
    ∃ written, kind.encode? value = some written := by
  cases kind with
  | int =>
    obtain ⟨n, hn⟩ := Option.isSome_iff_exists.mp h
    exact ⟨_, by rw [encode?, hn, Option.map_some]⟩
  | uint =>
    obtain ⟨n, hn⟩ := Option.isSome_iff_exists.mp h
    exact ⟨_, by rw [encode?, hn, Option.map_some]⟩
  | buffer =>
    obtain ⟨content, hc⟩ := Option.isSome_iff_exists.mp h
    exact ⟨_, by rw [encode?, hc, Option.map_some]⟩
  | _ => cases value <;> first | exact ⟨_, rfl⟩ | cases h

/-- Numbers of which one at most is a float compare as the whole numbers that they denote. -/
theorem same_of_integer? {a b : Value} (ha : a.integer? = some n) (hb : b.integer? = some n)
    (hf : (∀ x, a ≠ .float x) ∨ ∀ x, b ≠ .float x) : a.same b = true := by
  have hsame : a.same b = (a.integer?.isSome && a.integer? == b.integer?) := by
    cases a with
    | float x =>
      cases b with
      | float y => exact absurd hf (by simp)
      | _ => rfl
    | int k => cases b <;> first | rfl | cases hb
    | uint k => cases b <;> rfl
    | _ => cases ha
  rw [hsame, ha, hb]
  simp

theorem map_toByte?_of_mapM {items : List Value} (h : items.mapM Value.toByte? = some content) :
    items.map Value.toByte? = content.map some := by
  induction items generalizing content with
  | nil =>
    cases h
    rfl
  | cons item items ih =>
    rw [List.mapM_cons] at h
    obtain ⟨byte, hbyte, h⟩ := Option.bind_eq_some_iff.mp h
    obtain ⟨rest, hrest, h⟩ := Option.bind_eq_some_iff.mp h
    cases h
    rw [List.map_cons, hbyte, ih hrest, List.map_cons]

theorem same_bytes (h : Value.toBytes? value = some content) :
    (Value.bytes content).same value = true := by
  cases value with
  | bytes own =>
    cases h
    simp [Value.same, Value.sameScalar]
  | array items =>
    simp [Value.same, Value.sameScalar, map_toByte?_of_mapM h]
  | _ => cases h

/-- What a kind carries whole comes back with the same content. -/
theorem same_own {kind : Kind} (h : kind.bears value = true) : (kind.own value).same value = true := by
  cases kind with
  | string => cases value <;> first | exact beq_self_eq_true _ | cases h
  | boolean => cases value <;> first | exact beq_self_eq_true _ | cases h
  | date => cases value <;> first | exact beq_self_eq_true _ | cases h
  | null => cases value <;> first | rfl | cases h
  | unknown name => cases value <;> cases h
  | int =>
    obtain ⟨n, hn⟩ := Option.isSome_iff_exists.mp h
    obtain ⟨k, hk, hrange⟩ := Option.bind_eq_some_iff.mp hn
    rw [show int.own value = .int n by rw [own, canonical?, hn]; rfl]
    exact same_of_integer? (congrArg some (int64?_eq_some.mp hrange)) hk (.inl (by simp))
  | uint =>
    obtain ⟨n, hn⟩ := Option.isSome_iff_exists.mp h
    obtain ⟨k, hk, hrange⟩ := Option.bind_eq_some_iff.mp hn
    rw [show uint.own value = .uint n by rw [own, canonical?, hn]; rfl]
    exact same_of_integer? (congrArg some (uint64?_eq_some.mp hrange)) hk (.inl (by simp))
  | buffer =>
    obtain ⟨content, hc⟩ := Option.isSome_iff_exists.mp h
    rw [show buffer.own value = .bytes content by rw [own, canonical?, hc]; rfl]
    exact same_bytes hc
  | float =>
    cases value with
    | float x =>
      have hx : x.isNaN = false := by simpa [bears] using h
      exact Binary64.equals_self hx
    | int n => exact same_of_integer? (beq_iff_eq.mp h) rfl (.inr (by simp))
    | uint n => exact same_of_integer? (beq_iff_eq.mp h) rfl (.inr (by simp))
    | _ => cases h

end Kind

end Positional
