import Positional.Proofs.Binary64.Whole
import Positional.Proofs.Wire.Scalars
import Positional.Schema.Compilation

/-!
# Tags and what reading gives back

The writer of a discriminator matches the tag in the document, the reader the canonical form of it.
A kind settles a tag when the two always agree. A union's kind settles all tags of its options: the
tags of an integer union come from floats, so they are whole numbers that a float can hold, or the
greatest one, which no float in range can hold.
-/

namespace Positional

/-- The tag matches a value that the kind carries exactly when it matches its canonical form. -/
def Kind.Settles (kind : Kind) (tag : Tag) : Prop :=
  ∀ value own, kind.canonical? value = some own → tag.matchesValue own = tag.matchesValue value

namespace Tag

theorem settles_string (text : String) : Kind.string.Settles (.string text) := by
  intro value own h
  cases value <;> cases h
  rfl

theorem settles_boolean (flag : Bool) : Kind.boolean.Settles (.bool flag) := by
  intro value own h
  cases value <;> cases h
  rfl

theorem settles_float (x : Binary64) : Kind.float.Settles (.float x) := by
  intro value own h
  obtain ⟨y, hy, rfl⟩ := Option.map_eq_some_iff.mp h
  simp [matchesValue, hy]

/-- An integer tag is settled when the float nearest to it is no other integer in range. -/
theorem settles_int {tag : Int64} (hr : (Binary64.ofInt tag.toInt).toInt? = some k)
    (hk : ∀ n : Int64, k = n.toInt → tag = n) : Kind.int.Settles (.int tag) := by
  intro value own h
  obtain ⟨n, hn, rfl⟩ := Option.map_eq_some_iff.mp h
  obtain ⟨m, hm, hrange⟩ := Option.bind_eq_some_iff.mp hn
  have hnm : n.toInt = m := int64?_eq_some.mp hrange
  cases value with
  | int k =>
    cases hm
    rw [Int64.toInt_inj.mp hnm]
  | uint k =>
    cases hm
    simp only [matchesValue, ← hnm, Int64.toInt_inj, Bool.beq_eq_decide_eq]
  | float x =>
    have hx : x.toInt? = some n.toInt := hnm ▸ hm
    have hback : tag = n → k = n.toInt := by
      rintro rfl
      exact Option.some.inj (hr.symm.trans (Binary64.toInt?_ofInt hx))
    simp only [matchesValue, Binary64.isIntegral, hx, Option.isSome_some, Bool.true_and,
      Binary64.equals_of_toInt? hr hx, Bool.beq_eq_decide_eq]
    exact decide_eq_decide.mpr ⟨hback, hk n⟩
  | _ => cases hm

theorem settles_maxValue : Kind.int.Settles (.int Int64.maxValue) := by
  have hr : (Binary64.ofInt Int64.maxValue.toInt).toInt? = some 9223372036854775808 := by
    decide +kernel
  refine settles_int hr fun n hn => ?_
  have hlt := n.toInt_lt
  omega

theorem settles_saturate {x : Binary64} (h : x.toInt? = some n) : Kind.int.Settles (.int (saturate n)) := by
  have hexact : ∀ {tag : Int64}, (Binary64.ofInt tag.toInt).toInt? = some tag.toInt →
      Kind.int.Settles (.int tag) :=
    fun hr => settles_int hr fun _ hk => Int64.toInt_inj.mp hk
  rcases saturate_cases n with ⟨-, hs⟩ | ⟨-, hs⟩ | hs
  · rw [hs]
    exact hexact (by decide +kernel)
  · rw [hs]
    exact settles_maxValue
  · exact hexact (hs.symm ▸ Binary64.toInt?_ofInt h)

theorem settles_coerce {tag : Tag} {tagClass : TagClass} (hint : ∀ n, tag ≠ .int n)
    (h : tag.tagClass = tagClass ∨ tag.tagClass.isNumeric ∧ tagClass = .float) :
    tagClass.kind.Settles (tag.coerce tagClass) := by
  cases tag with
  | int n => exact absurd rfl (hint n)
  | string text =>
    rcases h with rfl | ⟨hnum, -⟩
    · exact settles_string text
    · cases hnum
  | bool flag =>
    rcases h with rfl | ⟨hnum, -⟩
    · exact settles_boolean flag
    · cases hnum
  | float x =>
    cases hx : x.toInt? with
    | none =>
      have hfloat : tagClass = .float := by
        rcases h with rfl | ⟨-, rfl⟩
        · simp [tagClass, Binary64.isIntegral, hx]
        · rfl
      subst hfloat
      exact settles_float x
    | some n =>
      rcases h with rfl | ⟨-, rfl⟩
      · simp only [tagClass, Binary64.isIntegral, hx, Option.isSome_some, if_true]
        simpa [coerce, hx, TagClass.kind] using settles_saturate hx
      · exact settles_float x

end Tag

namespace TagClass

theorem kind_mem (tagClass : TagClass) :
    tagClass.kind ∈ [Kind.int, .float, .boolean, .string] := by
  cases tagClass <;> decide

theorem check_kind (tagClass : TagClass) : tagClass.kind.check = .ok () := by
  cases tagClass <;> rfl

/-- The common class takes in each of the classes. -/
theorem unify?_eq_some (h : unify? classes = some tagClass) (hc : other ∈ classes) :
    other = tagClass ∨ other.isNumeric ∧ tagClass = .float := by
  cases classes with
  | nil => cases hc
  | cons first rest =>
    rw [unify?] at h
    split at h
    · rename_i hall
      cases h
      rcases List.mem_cons.mp hc with rfl | hc
      · exact .inl rfl
      · exact .inl (by simpa using List.all_eq_true.mp hall other hc)
    · split at h
      · rename_i hall
        cases h
        simp only [Bool.and_eq_true, List.all_eq_true] at hall
        rcases List.mem_cons.mp hc with rfl | hc
        · exact .inr ⟨hall.1, rfl⟩
        · exact .inr ⟨hall.2 other hc, rfl⟩
      · cases h

end TagClass

end Positional
