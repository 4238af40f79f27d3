import Positional.Proofs.Document.Alike
import Positional.Proofs.Json.Members
import Positional.Proofs.Json.Spelling

/-!
# Documents through JSON

On the way through JSON a number may change its variant, a date becomes its ticks and bytes become an
array of numbers. As long as floats are finite and none is the negative zero, each number stays the
number that it is, and carries the same tags.
-/

namespace Positional

namespace Value

/-- Whether a value, if it is a float, is finite and another number than the negative zero. -/
def plain : Value → Bool := floatPasses fun x => x.isFinite && !x.isNegativeZero

theorem plain_float (h : (float x).every plain = true) :
    x.isFinite = true ∧ x.isNegativeZero = false := by
  simpa [every, plain, floatPasses] using h

-- ---------------------------------------------------------------------------
-- Numbers
-- ---------------------------------------------------------------------------

theorem toInt_ofInt_of_small {n : Int} (h : n.natAbs < 2 * Binary64.binade) :
    (Int64.ofInt n).toInt = n := by
  have hbinade : Binary64.binade = 4503599627370496 := rfl
  exact Int64.toInt_ofInt_of_le (by omega) (by omega)

theorem toInt_ofInt_byte (byte : UInt8) : (Int64.ofInt byte.toNat).toInt = byte.toNat := by
  have hbinade : Binary64.binade = 4503599627370496 := rfl
  have hlt := byte.toNat_lt
  exact toInt_ofInt_of_small (by omega)

theorem toValue_int (n : Int64) : (Json.integer n.toInt).toValue = .int n := by
  rw [Json.toValue, int64?_eq_some.mpr rfl]

theorem toValue_uint (n : UInt64) : (Json.integer n.toNat).toValue = .uint n ∨
    ∃ k : Int64, (Json.integer n.toNat).toValue = .int k ∧ k.toInt = n.toNat := by
  cases h : int64? n.toNat with
  | some k =>
    have hk := int64?_eq_some.mp h
    exact .inr ⟨k, by rw [← hk, toValue_int], hk⟩
  | none => exact .inl (by rw [Json.toValue, h, uint64?_eq_some.mpr rfl])

theorem toValue_ofFloat (hx : x.isFinite = true) : (Json.ofFloat x).toValue = .float x ∨
    ∃ k : Int64, (Json.ofFloat x).toValue = .int k ∧ x.toInt? = some k.toInt ∧
      k.toInt.natAbs < 2 * Binary64.binade := by
  have hfloat : (Json.ofBinary64 x).toValue = .float x := by
    rw [Json.ofBinary64, if_pos hx, Json.toValue]
  rw [Json.ofFloat]
  split
  · rename_i n hn
    split
    · rename_i hsmall
      have hbound : n.natAbs < 2 * Binary64.binade := Nat.lt_succ_of_le hsmall
      have hk := toInt_ofInt_of_small hbound
      refine .inr ⟨.ofInt n, ?_, hk.symm ▸ hn, hk.symm ▸ hbound⟩
      rw [← toValue_int, hk]
    · exact .inl hfloat
  · exact .inl hfloat

/-- A number stays what it is, or becomes a signed integer that denotes the same. -/
theorem number_cases {a : Value} (ha : a.every plain = true) (h : a.toBinary64? = some x) :
    a.toJson.toValue = a ∨ ∃ k : Int64, a.toJson.toValue = .int k ∧ a.integer? = some k.toInt ∧
      x = .ofInt k.toInt ∧ ((∃ n, a = .uint n) ∨ a = .float x ∧ k.toInt.natAbs < 2 * Binary64.binade) := by
  cases a with
  | int n => exact .inl (toValue_int n)
  | uint n =>
    cases h
    rcases toValue_uint n with hsame | ⟨k, hk, heq⟩
    · exact .inl hsame
    · exact .inr ⟨k, hk, congrArg some heq.symm, by rw [heq], .inl ⟨n, rfl⟩⟩
  | float y =>
    cases h
    obtain ⟨hfinite, hzero⟩ := plain_float ha
    rcases toValue_ofFloat hfinite with hsame | ⟨k, hk, heq, hsmall⟩
    · exact .inl hsame
    · exact .inr ⟨k, hk, heq, (Binary64.ofInt_of_toInt? hzero heq).symm, .inr ⟨rfl, hsmall⟩⟩
  | _ => cases h

theorem toBinary64?_transported {a : Value} (ha : a.every plain = true) (h : a.toBinary64? = some x) :
    a.toJson.toValue.toBinary64? = some x := by
  rcases number_cases ha h with hsame | ⟨k, hk, -, rfl, -⟩
  · rw [hsame, h]
  · rw [hk, toBinary64?]

theorem integer?_transported {a : Value} (ha : a.every plain = true) (h : a.integer? = some n) :
    a.toJson.toValue.integer? = some n := by
  obtain ⟨x, hx⟩ := toBinary64?_of_integer? h
  rcases number_cases ha hx with hsame | ⟨k, hk, heq, -⟩
  · rw [hsame, h]
  · rw [hk, integer?, ← heq, h]

/-- An integer tag is compared with a float by rounding, but below `2 ^ 53` this is exact. -/
theorem matchesValue_float {tag k : Int64} (h : x.toInt? = some k.toInt)
    (hk : k.toInt.natAbs < 2 * Binary64.binade) :
    (Tag.int tag).matchesValue (.float x) = (tag == k) := by
  have htag : tag.toInt.natAbs < UInt64.size := Json.natAbs_lt_of_fits64 (Json.fits64_toInt tag)
  obtain ⟨n, hn⟩ := Option.isSome_iff_exists.mp (Binary64.isIntegral_ofInt htag)
  -- the tag may round, but not to an integer as small as this one
  have hiff : n = k.toInt ↔ tag = k := by
    constructor
    · rintro rfl
      exact Int64.toInt_inj.mp (Binary64.eq_of_toInt?_ofInt hn hk)
    · rintro rfl
      exact Option.some.inj (hn.symm.trans (Binary64.toInt?_ofInt h))
  rw [Tag.matchesValue, Binary64.isIntegral, h, Option.isSome_some, Bool.true_and,
    Binary64.equals_of_toInt? hn h, Bool.beq_eq_decide_eq]
  exact decide_eq_decide.mpr hiff

theorem matchesValue_transported {a : Value} (ha : a.every plain = true) (h : a.toBinary64? = some x)
    (tag : Tag) : tag.matchesValue a = tag.matchesValue a.toJson.toValue := by
  rcases number_cases ha h with hsame | ⟨k, hk, heq, rfl, hform⟩
  · rw [hsame]
  rw [hk]
  rcases hform with ⟨n, rfl⟩ | ⟨rfl, hsmall⟩
  · have hn : (n.toNat : Int) = k.toInt := Option.some.inj heq
    cases tag with
    | int tag => simp only [Tag.matchesValue, hn, Int64.toInt_inj, Bool.beq_eq_decide_eq]
    | float tag => simp only [Tag.matchesValue, toBinary64?, hn]
    | _ => rfl
  · cases tag with
    | int tag => exact matchesValue_float heq hsmall
    | _ => rfl

-- ---------------------------------------------------------------------------
-- Other values
-- ---------------------------------------------------------------------------

theorem toByte?_transported {a : Value} (ha : a.every plain = true) (h : a.toByte? = some byte) :
    a.toJson.toValue.toByte? = some byte := by
  obtain ⟨n, hn, -⟩ := toByte?_eq_some h
  rw [toByte?, integer?_transported ha hn, ← hn]
  exact h

theorem toByte?_integer (byte : UInt8) : (Json.integer byte.toNat).toValue.toByte? = some byte := by
  rw [← toInt_ofInt_byte, toValue_int, toByte?, integer?, toInt_ofInt_byte]
  simp [byte.toNat_lt]

theorem toValues_eq_map (items : List Json) : Json.toValues items = items.map Json.toValue := by
  induction items with
  | nil => rfl
  | cons item rest ih => rw [Json.toValues, ih, List.map_cons]

theorem transported_array (items : List Value) :
    (array items).toJson.toValue = .array (items.map fun item => item.toJson.toValue) := by
  rw [toJson, Json.toValue, toJsonItems_eq_map, toValues_eq_map, List.map_map]
  rfl

theorem mapM_eq_some_of_map {f : α → Option β} {items : List α} (h : items.map f = content.map some) :
    items.mapM f = some content := by
  induction items generalizing content with
  | nil => rw [List.map_eq_nil_iff.mp h.symm, List.mapM_nil, Option.pure_def]
  | cons item rest ih =>
    cases content with
    | nil => cases h
    | cons own others =>
      obtain ⟨hitem, hrest⟩ := List.cons.inj h
      simp [hitem, ih hrest]

theorem toBytes?_transported {a : Value} (ha : a.every plain = true)
    (h : a.toBytes? = some content) : a.toJson.toValue.toBytes? = some content := by
  cases a with
  | bytes own =>
    cases h
    rw [toJson, Json.toValue, toValues_eq_map, toBytes?]
    exact mapM_eq_some_of_map (by simp [toByte?_integer])
  | array items =>
    have hbytes := Kind.map_toByte?_of_mapM h
    rw [transported_array, toBytes?]
    refine mapM_eq_some_of_map ?_
    rw [← hbytes, List.map_map]
    refine List.map_congr_left fun item hi => ?_
    have hmem : item.toByte? ∈ content.map some := hbytes ▸ List.mem_map_of_mem hi
    obtain ⟨byte, -, hbyte⟩ := List.mem_map.mp hmem
    rw [← hbyte]
    exact toByte?_transported ((every_array.mp ha).2 item hi) hbyte.symm
  | _ => cases h

theorem null_transported {a : Value} (ha : a.every plain = true) :
    a = .null ↔ a.toJson.toValue = .null := by
  constructor
  · rintro rfl
    rfl
  · intro h
    cases hx : a.toBinary64? with
    | some x =>
      have hnumber := toBinary64?_transported ha hx
      rw [h] at hnumber
      cases hnumber
    | none =>
      cases a with
      | null => rfl
      | int | uint | float => cases hx
      | date ticks => exact absurd ((toValue_int ticks).symm.trans h) (by simp)
      | _ => cases h

-- ---------------------------------------------------------------------------
-- Printing
-- ---------------------------------------------------------------------------

theorem printable_ofFloat (hx : x.isFinite = true) : (Json.ofFloat x).printable = true := by
  have hfloat : (Json.ofBinary64 x).printable = true := by rwa [Json.ofBinary64, if_pos hx]
  rw [Json.ofFloat]
  split
  · rename_i n hn
    split
    · rename_i hsmall
      have hk := toInt_ofInt_of_small (Nat.lt_succ_of_le hsmall)
      exact hk ▸ Json.fits64_toInt (.ofInt n)
    · exact hfloat
  · exact hfloat

mutual

theorem printable_toJson : (v : Value) → v.every plain = true → v.toJson.printable = true
  | null, _ | bool _, _ | text _, _ => rfl
  | int n, _ | date n, _ => Json.fits64_toInt n
  | uint n, _ => Json.fits64_toNat n
  | float _, h => printable_ofFloat (plain_float h).1
  | bytes content, _ => by
    rw [toJson, Json.printable, Json.printableItems_iff, List.forall_mem_map]
    exact fun byte _ => toInt_ofInt_byte byte ▸ Json.fits64_toInt (.ofInt byte.toNat)
  | array items, h => printable_toJsonItems items (every_array.mp h).2
  | object fields, h => by
    rw [toJson, Json.printable, Json.printableMembers_iff]
    exact fun member hm => printable_toJsonMembers fields (every_object.mp h).2 member (mem_sortByName hm)

theorem printable_toJsonItems : (items : List Value) → (∀ item ∈ items, item.every plain = true) →
    Json.printableItems (toJsonItems items) = true
  | [], _ => rfl
  | item :: rest, h => by
    obtain ⟨hitem, hrest⟩ := List.forall_mem_cons.mp h
    exact (Bool.and_eq_true ..).mpr ⟨printable_toJson item hitem, printable_toJsonItems rest hrest⟩

theorem printable_toJsonMembers : (fields : List (String × Value)) →
    (∀ field ∈ fields, field.2.every plain = true) →
    ∀ member ∈ toJsonMembers fields, member.2.printable = true
  | [], _ => fun _ hm => absurd hm List.not_mem_nil
  | (_, value) :: rest, h => by
    obtain ⟨hvalue, hrest⟩ := List.forall_mem_cons.mp h
    exact List.forall_mem_cons.mpr
      ⟨printable_toJson value hvalue, printable_toJsonMembers rest hrest⟩

end

end Value

end Positional
