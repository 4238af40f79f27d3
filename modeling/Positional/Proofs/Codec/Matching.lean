import Positional.Proofs.Codec.Branches
import Positional.Proofs.Document.Equivalence

/-!
# Tags against equality of content

A tag is matched with a value by rules of its own, which round an integer before it is compared with
a float, while documents are compared exactly. The two agree on all values but dates, unless of the
tag and the value one is an integer that no float is and the other the float that it is rounded to:
then the tag is matched though it is another number.
-/

namespace Positional

namespace Tag

def toValue : Tag → Value
  | bool flag => .bool flag
  | int n => .int n
  | float x => .float x
  | string text => .text text

/-- Whether of the tag and the value one is an integer and the other a float that absorbs it. -/
def isRounded : Tag → Value → Bool
  | int n, .float x => x.absorbs n.toInt
  | float x, .int n => x.absorbs n.toInt
  | float x, .uint n => x.absorbs n.toNat
  | _, _ => false

theorem isSome_and_beq (found : Option Int) (n : Int) :
    (found.isSome && found == some n) = (found == some n) := by
  cases found <;> rfl

theorem isSome_and_beq_none (found : Option Int) : (found.isSome && found == none) = false := by
  cases found <;> rfl

theorem matchesValue_int (n : Int64) (h : value.notDate = true) :
    (int n).matchesValue value = ((Value.int n).same value || (int n).isRounded value) := by
  cases value with
  | int k =>
    have hsame : (Value.int n).same (.int k) = (some n.toInt == some k.toInt) := rfl
    simp [matchesValue, isRounded, hsame, Int64.toInt_inj, Bool.beq_eq_decide_eq]
  | uint k =>
    have hsame : (Value.int n).same (.uint k) = (some n.toInt == some (k.toNat : Int)) := rfl
    simp [matchesValue, isRounded, hsame, Bool.beq_eq_decide_eq]
  | float x =>
    have hsame : (Value.int n).same (.float x) = (some n.toInt == x.toInt?) := rfl
    have hbound : n.toInt.natAbs < UInt64.size :=
      natAbs_lt_of_integer (show (Value.int n).integer? = some n.toInt from rfl) (by simp)
    have hequals := x.equals_ofInt n.toInt
    rw [hsame, BEq.comm, isRounded, ← hequals, matchesValue]
    cases he : (Binary64.ofInt n.toInt).equals x with
    | false => rw [Bool.and_false]
    | true => rw [Binary64.isIntegral_of_equals_ofInt hbound he, Bool.and_self]
  | date t => cases h
  | _ => rfl

theorem matchesValue_float (x : Binary64) (h : value.notDate = true) :
    (float x).matchesValue value = ((Value.float x).same value || (float x).isRounded value) := by
  cases value with
  | int n =>
    have hsame : (Value.float x).same (.int n) = (x.toInt?.isSome && x.toInt? == some n.toInt) := rfl
    rw [hsame, isSome_and_beq, isRounded, ← x.equals_ofInt]
    rfl
  | uint n =>
    have hsame : (Value.float x).same (.uint n)
        = (x.toInt?.isSome && x.toInt? == some (n.toNat : Int)) := rfl
    rw [hsame, isSome_and_beq, isRounded, ← x.equals_ofInt]
    rfl
  | float y =>
    have hsame : (Value.float x).same (.float y) = x.equals y := rfl
    rw [hsame, Binary64.equals_comm]
    exact (Bool.or_false _).symm
  | date t => cases h
  | _ => exact (isSome_and_beq_none x.toInt?).symm.trans (Bool.or_false _).symm

/-- A tag is matched by what has its content, and by what it is taken for by rounding. -/
theorem matchesValue_eq (tag : Tag) (h : value.notDate = true) :
    tag.matchesValue value = (tag.toValue.same value || tag.isRounded value) := by
  cases tag with
  | int n => exact matchesValue_int n h
  | float x => exact matchesValue_float x h
  | bool flag => cases value <;> exact (Bool.or_false _).symm
  | string text => cases value <;> exact (Bool.or_false _).symm

theorem toInt?_ne_of_absorbs (h : Binary64.absorbs x n = true) : x.toInt? ≠ some n := by
  rw [Binary64.absorbs, Bool.and_eq_true, bne_iff_ne] at h
  exact h.2

theorem not_same_of_isRounded {tag : Tag} (h : tag.isRounded value = true) :
    tag.toValue.same value = false := by
  cases tag with
  | int n =>
    cases value with
    | float x =>
      have hsame : (Value.int n).same (.float x) = (some n.toInt == x.toInt?) := rfl
      exact hsame.trans (beq_eq_false_iff_ne.mpr (toInt?_ne_of_absorbs h).symm)
    | _ => cases h
  | float x =>
    cases value with
    | int n =>
      have hsame : (Value.float x).same (.int n) = (x.toInt?.isSome && x.toInt? == some n.toInt) := rfl
      rw [toValue, hsame, isSome_and_beq]
      exact beq_eq_false_iff_ne.mpr (toInt?_ne_of_absorbs h)
    | uint n =>
      have hsame : (Value.float x).same (.uint n)
          = (x.toInt?.isSome && x.toInt? == some (n.toNat : Int)) := rfl
      rw [toValue, hsame, isSome_and_beq]
      exact beq_eq_false_iff_ne.mpr (toInt?_ne_of_absorbs h)
    | _ => cases h
  | _ => cases h

/-- The tag and the value differ as the test does from equality just when rounding takes one for the
other. -/
theorem matchesValue_eq_same_iff (tag : Tag) (h : value.notDate = true) :
    tag.matchesValue value = tag.toValue.same value ↔ tag.isRounded value = false := by
  rw [matchesValue_eq tag h]
  cases hr : tag.isRounded value with
  | false => simp
  | true => simp [not_same_of_isRounded hr]

/-- The integer that is taken for a float lies beyond `2 ^ 53`, and no float is that integer. -/
theorem isRounded_only {tag : Tag} (h : tag.isRounded value = true) :
    ∃ n : Int, 2 * Binary64.binade < n.natAbs ∧ (∀ x : Binary64, x.toInt? ≠ some n) ∧
      (tag.toValue.integer? = some n ∨ value.integer? = some n) := by
  cases tag with
  | int n =>
    cases value with
    | float x =>
      have hrange := Binary64.absorbs_only h
      exact ⟨_, hrange.1, hrange.2, .inl rfl⟩
    | _ => cases h
  | float x =>
    cases value with
    | int n =>
      have hrange := Binary64.absorbs_only h
      exact ⟨_, hrange.1, hrange.2, .inr rfl⟩
    | uint n =>
      have hrange := Binary64.absorbs_only h
      exact ⟨_, hrange.1, hrange.2, .inr rfl⟩
    | _ => cases h
  | _ => cases h

end Tag

namespace Block

theorem choice_eq_iff (h : value.notDate = true) (options : List (Tag × Program)) :
    choice options value = options.findIdx? (fun option => option.1.toValue.same value) ↔
      ∀ option, options.find? (fun option => option.1.matchesValue value) = some option →
        option.1.isRounded value = false := by
  have heither : (fun option : Tag × Program =>
      option.1.matchesValue value || option.1.toValue.same value) =
      fun option => option.1.matchesValue value := by
    funext option
    rw [Tag.matchesValue_eq _ h, Bool.or_right_comm, Bool.or_self]
  rw [choice, findIdx?_eq_iff, heither]
  simp only [Tag.matchesValue_eq_same_iff _ h]

theorem select_of_choice {test : Tag × Program → Bool} (h : choice options value = options.findIdx? test) :
    select options value = (options.find? test).map (·.2) := by
  rw [choice] at h
  rw [select, List.find?_eq_bind_findIdx?_getElem?, List.find?_eq_bind_findIdx?_getElem?, h]

/-- A tag is matched as it is equal to the value, and the first option with an equal tag is selected,
up to an integer beyond `2 ^ 53` that is no float: that one is also taken for the float that it is
rounded to. -/
theorem matches_iff_same (h : value.notDate = true) :
    (∀ tag : Tag, tag.matchesValue value = tag.toValue.same value ↔ tag.isRounded value = false) ∧
    (∀ tag : Tag, tag.isRounded value = true →
      tag.matchesValue value = true ∧ tag.toValue.same value = false ∧
      ∃ n : Int, 2 * Binary64.binade < n.natAbs ∧ (∀ x : Binary64, x.toInt? ≠ some n) ∧
        (tag.toValue.integer? = some n ∨ value.integer? = some n)) ∧
    (∀ flag, (Tag.bool flag).matchesValue value = true ↔ value = .bool flag) ∧
    (∀ content, (Tag.string content).matchesValue value = true ↔ value = .text content) ∧
    ∀ options : List (Tag × Program),
      (choice options value = options.findIdx? (fun option => option.1.toValue.same value) ↔
        ∀ option, options.find? (fun option => option.1.matchesValue value) = some option →
          option.1.isRounded value = false) ∧
      (choice options value = options.findIdx? (fun option => option.1.toValue.same value) →
        select options value =
          (options.find? fun option => option.1.toValue.same value).map (·.2)) := by
  refine ⟨fun tag => tag.matchesValue_eq_same_iff h, fun tag hr => ?_, fun flag => ?_,
    fun content => ?_, fun options => ⟨choice_eq_iff h options, select_of_choice⟩⟩
  · refine ⟨?_, Tag.not_same_of_isRounded hr, Tag.isRounded_only hr⟩
    rw [Tag.matchesValue_eq tag h, hr, Bool.or_true]
  · rw [(Tag.matchesValue_eq_same_iff (.bool flag) h).mpr rfl]
    exact Value.bool_same_iff
  · rw [(Tag.matchesValue_eq_same_iff (.string content) h).mpr rfl]
    exact Value.text_same_iff

/-- Near the end of the range the first of two tags is not the one that equals the value. -/
theorem matches_iff_same_end :
    let value : Value := .uint 9223372036854775808
    let options : List (Tag × Program) :=
      [(.int 9223372036854775807, []), (.float ⟨0x43e0000000000000⟩, [.primitive .string ["s"]])]
    value.notDate = true ∧ choice options value = some 1 ∧
      (select options value).map List.length = some 1 := by
  intro value options
  obtain ⟨-, -, -, -, hselect⟩ := matches_iff_same (show value.notDate = true from rfl)
  have hnone : ∀ option ∈ options, option.1.isRounded value = false := by
    simp only [options, List.forall_mem_cons]
    exact ⟨rfl, by decide +kernel, by simp⟩
  have hchoice := (hselect options).1.mpr fun option h => hnone option (List.mem_of_find?_eq_some h)
  refine ⟨rfl, hchoice.trans (by decide +kernel), ?_⟩
  rw [(hselect options).2 hchoice]
  decide +kernel

/-- The float `2 ^ 53` matches the tag `2 ^ 53 + 1`, and the integer `2 ^ 53 + 1` the float tag
`2 ^ 53`, although they are other numbers: an option is selected where no tag equals the value. -/
theorem matches_not_same :
    (Tag.int 9007199254740993).matchesValue (.float ⟨0x4340000000000000⟩) = true ∧
    (Value.int 9007199254740993).same (.float ⟨0x4340000000000000⟩) = false ∧
    (Tag.float ⟨0x4340000000000000⟩).matchesValue (.int 9007199254740993) = true ∧
    (Value.float ⟨0x4340000000000000⟩).same (.int 9007199254740993) = false ∧
    (select [(.int 9007199254740993, [.primitive .string ["s"]])]
      (.float ⟨0x4340000000000000⟩)).map List.length = some 1 := by
  decide +kernel

end Block

end Positional
