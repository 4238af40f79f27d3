import Positional.Proofs.Document.Transport

/-!
# Documents and JSON, there and back

A document comes back from its JSON with the same content: bytes as an array of the same numbers, a
date as its ticks, a number perhaps as another variant, the fields sorted. A JSON value comes back
from its document as it is read, but for floats: one that is a small whole number is then that
integer.
-/

namespace Positional

namespace Json

mutual

/-- The value with an integer in place of every float that is one of at most `2 ^ 53 - 1` in size. -/
def narrowed : Json → Json
  | float x =>
    match x.toInt? with
    | some n => if n.natAbs ≤ maxSafeInteger then integer n else float x
    | none => float x
  | array items => array (narrowedItems items)
  | object members => object (narrowedMembers members)
  | other => other

def narrowedItems : List Json → List Json
  | [] => []
  | item :: rest => item.narrowed :: narrowedItems rest

def narrowedMembers : List (String × Json) → List (String × Json)
  | [] => []
  | (name, item) :: rest => (name, item.narrowed) :: narrowedMembers rest

end

mutual

/-- Whether the members of every object are in the order of their names, each name once. -/
def ordered : Json → Bool
  | array items => orderedItems items
  | object members => decide (members.Pairwise fun a b => a.1 < b.1) && orderedMembers members
  | _ => true

def orderedItems : List Json → Bool
  | [] => true
  | item :: rest => item.ordered && orderedItems rest

def orderedMembers : List (String × Json) → Bool
  | [] => true
  | (_, item) :: rest => item.ordered && orderedMembers rest

end

mutual

theorem sorted_of_ordered : (json : Json) → json.ordered = true → json.sorted = json
  | null, _ | bool _, _ | integer _, _ | float _, _ | string _, _ => rfl
  | array items, h => by rw [sorted, sortedItems_of_ordered items h]
  | object members, h => by
    rw [ordered, Bool.and_eq_true, decide_eq_true_eq] at h
    rw [sorted, sortedMembers_of_ordered members h.2, sortByName_of_ascending h.1]

theorem sortedItems_of_ordered : (items : List Json) → orderedItems items = true →
    sortedItems items = items
  | [], _ => rfl
  | item :: rest, h => by
    rw [orderedItems, Bool.and_eq_true] at h
    rw [sortedItems, sorted_of_ordered item h.1, sortedItems_of_ordered rest h.2]

theorem sortedMembers_of_ordered : (members : List (String × Json)) → orderedMembers members = true →
    sortedMembers members = members
  | [], _ => rfl
  | (_, item) :: rest, h => by
    rw [orderedMembers, Bool.and_eq_true] at h
    rw [sortedMembers, sorted_of_ordered item h.1, sortedMembers_of_ordered rest h.2]

end

theorem narrowedMembers_eq_map (members : List (String × Json)) :
    narrowedMembers members = members.map fun member => (member.1, member.2.narrowed) := by
  induction members with
  | nil => rfl
  | cons member rest ih => rw [narrowedMembers, ih, List.map_cons]

theorem sortedMembers_eq_map (members : List (String × Json)) :
    sortedMembers members = members.map fun member => (member.1, member.2.sorted) := by
  induction members with
  | nil => rfl
  | cons member rest ih => rw [sortedMembers, ih, List.map_cons]

theorem ofFloat_of_finite (hx : x.isFinite = true) : ofFloat x = (float x).narrowed := by
  cases h : x.toInt? <;> simp [ofFloat, ofBinary64, narrowed, hx, h]

end Json

namespace Value

def finite : Value → Bool := floatPasses Binary64.isFinite

theorem isNaN_of_isFinite {x : Binary64} (h : x.isFinite = true) : x.isNaN = false := by
  simp only [Binary64.isFinite, decide_eq_true_eq] at h
  simp only [Binary64.isNaN, decide_eq_false_iff_not]
  omega

-- ---------------------------------------------------------------------------
-- From a document
-- ---------------------------------------------------------------------------

theorem same_returned_uint (n : UInt64) : (uint n).toJson.toValue.same (uint n) = true := by
  rw [toJson]
  rcases toValue_uint n with hsame | ⟨k, hk, heq⟩
  · rw [hsame]
    exact Kind.same_of_integer? rfl rfl (.inl (by simp))
  · rw [hk]
    exact Kind.same_of_integer? (congrArg some heq) rfl (.inl (by simp))

theorem same_returned_float (hx : x.isFinite = true) :
    (float x).toJson.toValue.same (float x) = true := by
  rw [toJson]
  rcases toValue_ofFloat hx with hsame | ⟨k, hk, heq, -⟩
  · rw [hsame]
    exact Binary64.equals_self (isNaN_of_isFinite hx)
  · rw [hk]
    exact Kind.same_of_integer? rfl heq (.inl (by simp))

theorem same_returned_bytes (content : Bytes) :
    (bytes content).toJson.toValue.same (bytes content) = true := by
  have hitems : ((content.map fun byte => Json.integer byte.toNat).map Json.toValue).map toByte?
      = content.map some := by
    rw [List.map_map, List.map_map]
    exact List.map_congr_left fun byte _ => toByte?_integer byte
  have hsame : ∀ items, (array items).same (bytes content) = (items.map toByte? == content.map some) :=
    fun _ => rfl
  rw [toJson, Json.toValue, toValues_eq_map, hsame, hitems]
  exact beq_self_eq_true _

theorem same_returned_object (hn : (xs.map (·.1)).Nodup)
    (h : ∀ field ∈ xs, field.2.toJson.toValue.same field.2 = true) :
    (object xs).toJson.toValue.same (object xs) = true := by
  obtain ⟨members, hm⟩ : ∃ members, (object xs).toJson.toValue = .object (sortByName members) := by
    rw [toJson, Json.toValue]
    exact ⟨_, rfl⟩
  have hlookup : ∀ name,
      (sortByName members).lookup name = (xs.lookup name).map (·.toJson.toValue) := by
    intro name
    have hfields := Json.lookup_fields_toValue (object xs).toJson name
    rw [hm, member?_toJson (v := object xs) hn, Option.map_map] at hfields
    exact hfields
  rw [hm]
  refine same_object (names_nodup_sortByName _) hn fun name => ?_
  rw [hlookup]
  cases hx : xs.lookup name with
  | none => trivial
  | some value => exact h _ (mem_of_lookup hx)

mutual

theorem same_returned : (v : Value) → v.every namesOnce = true → v.every finite = true →
    v.toJson.toValue.same v = true
  | null, _, _ => rfl
  | bool flag, _, _ => beq_self_eq_true flag
  | text content, _, _ => beq_self_eq_true content
  | int n, _, _ => by
    rw [toJson, toValue_int]
    exact Kind.same_of_integer? rfl rfl (.inl (by simp))
  | date ticks, _, _ => by
    rw [toJson, toValue_int]
    exact beq_self_eq_true ticks
  | uint n, _, _ => same_returned_uint n
  | float _, _, hf => same_returned_float hf
  | bytes content, _, _ => same_returned_bytes content
  | array items, hn, hf => by
    rw [transported_array]
    exact same_array (same_returned_items items (every_array.mp hn).2 (every_array.mp hf).2)
  | object fields, hn, hf =>
    same_returned_object (names_nodup hn)
      (same_returned_fields fields (every_object.mp hn).2 (every_object.mp hf).2)

theorem same_returned_items : (items : List Value) → (∀ item ∈ items, item.every namesOnce = true) →
    (∀ item ∈ items, item.every finite = true) →
    ∀ item ∈ items, item.toJson.toValue.same item = true
  | [], _, _ => fun _ hi => absurd hi List.not_mem_nil
  | item :: rest, hn, hf => by
    obtain ⟨hname, hnames⟩ := List.forall_mem_cons.mp hn
    obtain ⟨hfinite, hfinites⟩ := List.forall_mem_cons.mp hf
    exact List.forall_mem_cons.mpr
      ⟨same_returned item hname hfinite, same_returned_items rest hnames hfinites⟩

theorem same_returned_fields : (fields : List (String × Value)) →
    (∀ field ∈ fields, field.2.every namesOnce = true) →
    (∀ field ∈ fields, field.2.every finite = true) →
    ∀ field ∈ fields, field.2.toJson.toValue.same field.2 = true
  | [], _, _ => fun _ hf => absurd hf List.not_mem_nil
  | (_, value) :: rest, hn, hf => by
    obtain ⟨hname, hnames⟩ := List.forall_mem_cons.mp hn
    obtain ⟨hfinite, hfinites⟩ := List.forall_mem_cons.mp hf
    exact List.forall_mem_cons.mpr
      ⟨same_returned value hname hfinite, same_returned_fields rest hnames hfinites⟩

end

-- ---------------------------------------------------------------------------
-- From a JSON value
-- ---------------------------------------------------------------------------

theorem returned_integer (h : Json.fits64 n = true) :
    (Json.integer n).toValue.toJson = .integer n := by
  rw [Json.toValue]
  cases hi : int64? n with
  | some k => exact congrArg Json.integer (int64?_eq_some.mp hi)
  | none =>
    obtain ⟨k, hu⟩ : ∃ k, uint64? n = some k := by
      rw [Json.fits64, hi] at h
      exact Option.isSome_iff_exists.mp h
    rw [hu]
    exact congrArg Json.integer (uint64?_eq_some.mp hu)

theorem returned_object (h : ∀ member ∈ members, member.2.toValue.toJson = member.2.sorted.narrowed) :
    (Json.object members).toValue.toJson = (Json.object members).sorted.narrowed := by
  have hmembers : (members.map fun member => (member.1, member.2.toValue.toJson))
      = members.map fun member => (member.1, member.2.sorted.narrowed) :=
    List.map_congr_left fun member hm => by rw [h member hm]
  -- the fields are in order already when they become members again
  have hascending : ((sortByName (Json.toFields members)).map
      fun field => (field.1, field.2.toJson)).Pairwise fun a b => a.1 < b.1 :=
    List.pairwise_map.mpr ((pairwise_sortByName _).imp id)
  rw [Json.toValue, toJson, toJsonMembers_eq_map, sortByName_of_ascending hascending,
    Json.toFields_eq_map, ← sortByName_map, List.map_map, Json.sorted, Json.narrowed,
    Json.narrowedMembers_eq_map, Json.sortedMembers_eq_map, ← sortByName_map, List.map_map]
  exact congrArg (fun found => Json.object (sortByName found)) hmembers

mutual

theorem returned : (json : Json) → json.printable = true → json.toValue.toJson = json.sorted.narrowed
  | .null, _ | .bool _, _ | .string _, _ => rfl
  | .integer _, h => returned_integer h
  | .float _, h => Json.ofFloat_of_finite h
  | .array items, h => by
    rw [Json.toValue, toJson, returned_items items (Json.printableItems_iff.mp h)]
    rfl
  | .object members, h => returned_object (returned_members members (Json.printableMembers_iff.mp h))

theorem returned_items : (items : List Json) → (∀ item ∈ items, item.printable = true) →
    toJsonItems (Json.toValues items) = Json.narrowedItems (Json.sortedItems items)
  | [], _ => rfl
  | item :: rest, h => by
    obtain ⟨hitem, hrest⟩ := List.forall_mem_cons.mp h
    rw [Json.toValues, toJsonItems, returned item hitem, returned_items rest hrest, Json.sortedItems,
      Json.narrowedItems]

theorem returned_members : (members : List (String × Json)) →
    (∀ member ∈ members, member.2.printable = true) →
    ∀ member ∈ members, member.2.toValue.toJson = member.2.sorted.narrowed
  | [], _ => fun _ hm => absurd hm List.not_mem_nil
  | (_, item) :: rest, h => by
    obtain ⟨hitem, hrest⟩ := List.forall_mem_cons.mp h
    exact List.forall_mem_cons.mpr ⟨returned item hitem, returned_members rest hrest⟩

end

end Value

/-- A document without NaN and infinities comes back from its JSON with the same content. A JSON value
comes back from its document as it is with its members sorted, and in every respect if they are in
order, but that a float which is a whole number of at most `2 ^ 53 - 1` in size has become that
integer. -/
theorem Json.conversion_returns :
    (∀ v : Value, v.every Value.namesOnce = true → v.every Value.finite = true →
      v.toJson.toValue.same v = true) ∧
    ∀ json : Json, json.printable = true → json.toValue.toJson = json.sorted.narrowed ∧
      (json.ordered = true → json.toValue.toJson = json.narrowed) := by
  refine ⟨Value.same_returned, fun json hp => ⟨Value.returned json hp, fun ho => ?_⟩⟩
  rw [Value.returned json hp, sorted_of_ordered json ho]

/-- Numbers at the ends of their ranges, in fields and members that are not in order. -/
theorem Json.conversion_returns_edges :
    (∃ v : Value, v = .object [("raw", .bytes [0, 255]), ("at", .date 5), ("list", .array
        [.uint 18446744073709551615, .uint 9223372036854775807, .float (.ofMagnitude true 0),
          .float (.ofInt 9007199254740992)])] ∧
      v.every Value.namesOnce = true ∧ v.every Value.finite = true ∧ v.toJson.toValue.same v = true) ∧
    ∃ json : Json, json = .object [("y", .integer 18446744073709551615), ("x", .array
        [.float (.ofInt 9007199254740991), .float (.ofInt 9007199254740992),
          .float (.ofMagnitude true 0)])] ∧
      json.printable = true ∧ json.toValue.toJson = .object [("x", .array [.integer 9007199254740991,
        .float (.ofInt 9007199254740992), .integer 0]), ("y", .integer 18446744073709551615)] := by
  refine ⟨⟨_, rfl, ?_⟩, _, rfl, ?_⟩
  · have hn : (Value.object [("raw", .bytes [0, 255]), ("at", .date 5), ("list", .array
        [.uint 18446744073709551615, .uint 9223372036854775807, .float (.ofMagnitude true 0),
          .float (.ofInt 9007199254740992)])]).every Value.namesOnce = true := by decide +kernel
    have hf : (Value.object [("raw", .bytes [0, 255]), ("at", .date 5), ("list", .array
        [.uint 18446744073709551615, .uint 9223372036854775807, .float (.ofMagnitude true 0),
          .float (.ofInt 9007199254740992)])]).every Value.finite = true := by decide +kernel
    exact ⟨hn, hf, Json.conversion_returns.1 _ hn hf⟩
  · have hp : (Json.object [("y", .integer 18446744073709551615), ("x", .array
        [.float (.ofInt 9007199254740991), .float (.ofInt 9007199254740992),
          .float (.ofMagnitude true 0)])]).printable = true := by decide +kernel
    have hgreatest : (Binary64.ofInt 9007199254740991).toInt? = some 9007199254740991 := by
      decide +kernel
    have hnext : (Binary64.ofInt 9007199254740992).toInt? = some 9007199254740992 := by decide +kernel
    have hzero : (Binary64.ofMagnitude true 0).toInt? = some 0 := by decide +kernel
    refine ⟨hp, (Json.conversion_returns.2 _ hp).1.trans ?_⟩
    change Json.narrowed (.object [("x", _), ("y", _)]) = _
    simp [Json.sorted, Json.sortedItems, Json.narrowed, Json.narrowedMembers, Json.narrowedItems,
      hgreatest, hnext, hzero, Json.maxSafeInteger]

end Positional
