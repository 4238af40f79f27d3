import Positional.Proofs.Schema.Interchange
import Positional.Program.Source

/-!
# Schemas from descriptions

A description that is read from a text holds no literal that a text could not hold, so the tags of the
schema that it makes are finite.
-/

namespace Positional

namespace Description

mutual

def printable : Description → Bool
  | object fields => printableFields fields
  | union _ options => printableOptions options
  | literal value => value.printable
  | array inner | optional inner | nullable inner => inner.printable
  | _ => true

def printableFields : List (String × Description) → Bool
  | [] => true
  | (_, field) :: rest => field.printable && printableFields rest

def printableOptions : List Description → Bool
  | [] => true
  | option :: rest => option.printable && printableOptions rest

end

-- ---------------------------------------------------------------------------
-- Reading
-- ---------------------------------------------------------------------------

section

variable {description : Description}

theorem printable_of_ofName? (h : ofName? form = some description) : description.printable = true := by
  unfold ofName? at h
  split at h <;> cases h <;> rfl

theorem printable_of_numberOfMembers? (h : numberOfMembers? members = some description) :
    description.printable = true := by
  obtain ⟨_, -, h⟩ := Option.bind_eq_some_iff.mp h
  obtain ⟨_, -, h⟩ := Option.bind_eq_some_iff.mp h
  obtain ⟨_, -, h⟩ := Option.bind_eq_some_iff.mp h
  cases h
  rfl

theorem printable_of_numberOfItems? (h : numberOfItems? items = some description) :
    description.printable = true := by
  unfold numberOfItems? at h
  split at h
  · cases h
    rfl
  · obtain ⟨_, -, h⟩ := Option.bind_eq_some_iff.mp h
    cases h
    rfl
  · obtain ⟨_, -, h⟩ := Option.bind_eq_some_iff.mp h
    obtain ⟨_, -, h⟩ := Option.bind_eq_some_iff.mp h
    cases h
    rfl
  · obtain ⟨_, -, h⟩ := Option.bind_eq_some_iff.mp h
    obtain ⟨_, -, h⟩ := Option.bind_eq_some_iff.mp h
    obtain ⟨_, -, h⟩ := Option.bind_eq_some_iff.mp h
    cases h
    rfl
  · cases h

end

mutual

/-- What is read from a value with exact numbers has exact literals. -/
theorem printable_of_ofJson? {nested : Bool} {description : Description} : (json : Json) →
    json.printable = true → ofJson? nested json = some description → description.printable = true
  | .object members, hj, h => by
    rw [ofJson?] at h
    split at h
    · obtain ⟨fields, hfields, rfl⟩ := Option.map_eq_some_iff.mp h
      exact printable_of_fieldMembers members hj fields (mem_of_join hfields)
    · obtain ⟨_, -, h⟩ := Option.bind_eq_some_iff.mp h
      obtain ⟨_, -, h⟩ := Option.bind_eq_some_iff.mp h
      obtain ⟨options, hoptions, h⟩ := Option.bind_eq_some_iff.mp h
      cases h
      exact printable_of_optionMembers members hj options (mem_of_join hoptions)
    · exact printable_of_numberOfMembers? h
    · obtain ⟨_, -, h⟩ := Option.bind_eq_some_iff.mp h
      obtain ⟨_, -, rfl⟩ := Option.map_eq_some_iff.mp h
      rfl
    · obtain ⟨value, hvalue, rfl⟩ := Option.map_eq_some_iff.mp h
      exact Json.printable_of_field? hj hvalue
    · obtain ⟨inner, hinner, rfl⟩ := Option.map_eq_some_iff.mp h
      exact printable_of_innerMembers members hj inner (mem_of_join hinner)
    · obtain ⟨inner, hinner, rfl⟩ := Option.map_eq_some_iff.mp h
      exact printable_of_innerMembers members hj inner (mem_of_join hinner)
    · obtain ⟨inner, hinner, rfl⟩ := Option.map_eq_some_iff.mp h
      exact printable_of_innerMembers members hj inner (mem_of_join hinner)
    · exact printable_of_ofName? h
    · cases h
  | .array [_], _, h => by
    rw [ofJson?] at h
    split at h
    · exact printable_of_numberOfItems? h
    · exact printable_of_ofName? h
    · cases h
  | .array [_, item], hj, h => by
    rw [ofJson?] at h
    have hitem := Json.printableItems_iff.mp hj item (by simp)
    split at h
    · obtain ⟨fields, hfields, rfl⟩ := Option.map_eq_some_iff.mp h
      exact printable_of_fieldsOfJson? item hitem hfields
    · exact printable_of_numberOfItems? h
    · obtain ⟨_, -, rfl⟩ := Option.map_eq_some_iff.mp h
      rfl
    · cases h
      exact hitem
    · obtain ⟨inner, hinner, rfl⟩ := Option.map_eq_some_iff.mp h
      exact (printable_of_ofJson? item hitem hinner : inner.printable = true)
    · obtain ⟨inner, hinner, rfl⟩ := Option.map_eq_some_iff.mp h
      exact (printable_of_ofJson? item hitem hinner : inner.printable = true)
    · obtain ⟨inner, hinner, rfl⟩ := Option.map_eq_some_iff.mp h
      exact (printable_of_ofJson? item hitem hinner : inner.printable = true)
    · cases h
  | .array [_, _, options], hj, h => by
    rw [ofJson?] at h
    have hitem := Json.printableItems_iff.mp hj options (by simp)
    split at h
    · obtain ⟨_, -, h⟩ := Option.bind_eq_some_iff.mp h
      obtain ⟨_, hlist, h⟩ := Option.bind_eq_some_iff.mp h
      cases h
      exact printable_of_listOfJson? options hitem hlist
    · exact printable_of_numberOfItems? h
    · cases h
  | .array (_ :: _ :: _ :: _ :: _), _, h => by
    simp only [ofJson?] at h
    split at h
    · exact printable_of_numberOfItems? h
    · cases h
  | .array [], _, h | .null, _, h | .bool _, _, h | .integer _, _, h | .float _, _, h
  | .string _, _, h => by
    simp [ofJson?] at h

theorem printable_of_fieldsOfJson? {fields : List (String × Description)} : (json : Json) →
    json.printable = true → fieldsOfJson? json = some fields → printableFields fields = true
  | .array items, hj, h => by
    rw [fieldsOfJson?] at h
    exact printable_of_fieldListOfJson? items hj h
  | .null, _, h | .bool _, _, h | .integer _, _, h | .float _, _, h | .string _, _, h
  | .object _, _, h => by
    simp [fieldsOfJson?] at h

theorem printable_of_fieldListOfJson? {fields : List (String × Description)} : (items : List Json) →
    Json.printableItems items = true → fieldListOfJson? items = some fields →
    printableFields fields = true
  | [], _, h => by
    cases h
    rfl
  | .array [.string _, item] :: rest, hj, h => by
    obtain ⟨hpair, hrest⟩ := (Bool.and_eq_true ..).mp hj
    obtain ⟨field, hfield, h⟩ := Option.bind_eq_some_iff.mp h
    obtain ⟨others, hothers, h⟩ := Option.bind_eq_some_iff.mp h
    cases h
    have hitem := Json.printableItems_iff.mp hpair item (by simp)
    exact (Bool.and_eq_true ..).mpr
      ⟨printable_of_ofJson? item hitem hfield, printable_of_fieldListOfJson? rest hrest hothers⟩
  | .array [] :: _, _, h | .array [_] :: _, _, h | .array (_ :: _ :: _ :: _) :: _, _, h
  | .array [.null, _] :: _, _, h | .array [.bool _, _] :: _, _, h
  | .array [.integer _, _] :: _, _, h | .array [.float _, _] :: _, _, h
  | .array [.array _, _] :: _, _, h | .array [.object _, _] :: _, _, h
  | .null :: _, _, h | .bool _ :: _, _, h | .integer _ :: _, _, h | .float _ :: _, _, h
  | .string _ :: _, _, h | .object _ :: _, _, h => by
    simp [fieldListOfJson?] at h

theorem printable_of_listOfJson? {options : List Description} : (json : Json) →
    json.printable = true → listOfJson? json = some options → printableOptions options = true
  | .array items, hj, h => by
    rw [listOfJson?] at h
    exact printable_of_itemsOfJson? items hj h
  | .null, _, h | .bool _, _, h | .integer _, _, h | .float _, _, h | .string _, _, h
  | .object _, _, h => by
    simp [listOfJson?] at h

theorem printable_of_itemsOfJson? {options : List Description} : (items : List Json) →
    Json.printableItems items = true → itemsOfJson? items = some options →
    printableOptions options = true
  | [], _, h => by
    cases h
    rfl
  | item :: rest, hj, h => by
    obtain ⟨hitem, hrest⟩ := (Bool.and_eq_true ..).mp hj
    obtain ⟨option, hoption, h⟩ := Option.bind_eq_some_iff.mp h
    obtain ⟨others, hothers, h⟩ := Option.bind_eq_some_iff.mp h
    cases h
    exact (Bool.and_eq_true ..).mpr
      ⟨printable_of_ofJson? item hitem hoption, printable_of_itemsOfJson? rest hrest hothers⟩

theorem printable_of_fieldMembers : (members : List (String × Json)) →
    Json.printableMembers members = true → (fields : List (String × Description)) →
    some fields ∈ fieldMembers members → printableFields fields = true
  | [], _, _, h => absurd h List.not_mem_nil
  | (name, item) :: rest, hj, fields, h => by
    obtain ⟨hitem, hrest⟩ := (Bool.and_eq_true ..).mp hj
    rw [fieldMembers] at h
    split at h
    · rcases List.mem_cons.mp h with hread | h
      · exact printable_of_fieldsOfJson? item hitem hread.symm
      · exact printable_of_fieldMembers rest hrest fields h
    · exact printable_of_fieldMembers rest hrest fields h

theorem printable_of_optionMembers : (members : List (String × Json)) →
    Json.printableMembers members = true → (options : List Description) →
    some options ∈ optionMembers members → printableOptions options = true
  | [], _, _, h => absurd h List.not_mem_nil
  | (name, item) :: rest, hj, options, h => by
    obtain ⟨hitem, hrest⟩ := (Bool.and_eq_true ..).mp hj
    rw [optionMembers] at h
    split at h
    · rcases List.mem_cons.mp h with hread | h
      · exact printable_of_listOfJson? item hitem hread.symm
      · exact printable_of_optionMembers rest hrest options h
    · exact printable_of_optionMembers rest hrest options h

theorem printable_of_innerMembers {wanted : String} : (members : List (String × Json)) →
    Json.printableMembers members = true → (inner : Description) →
    some inner ∈ innerMembers wanted members → inner.printable = true
  | [], _, _, h => absurd h List.not_mem_nil
  | (name, item) :: rest, hj, inner, h => by
    obtain ⟨hitem, hrest⟩ := (Bool.and_eq_true ..).mp hj
    rw [innerMembers] at h
    split at h
    · rcases List.mem_cons.mp h with hread | h
      · exact printable_of_ofJson? item hitem hread.symm
      · exact printable_of_innerMembers rest hrest inner h
    · exact printable_of_innerMembers rest hrest inner h

end

theorem printable_of_parse? {description : Description} {reader : Json.FloatReader}
    (h : parse? text reader = some description) : description.printable = true := by
  obtain ⟨json, hjson, h⟩ := Option.bind_eq_some_iff.mp h
  exact printable_of_ofJson? json (Json.printable_of_parse? hjson) h

-- ---------------------------------------------------------------------------
-- Schemas
-- ---------------------------------------------------------------------------

/-- The numbers that can become tags are finite, in a schema and in what it may be part of. -/
structure Finite (schema : Schema) : Prop where
  tags : schema.finiteTags = true
  number : schema.finiteNumber = true
  member (discriminator : String) : schema.finiteLiteral discriminator = true

theorem map_ok {f : α → β} {x : Except ε α} (h : x.map f = .ok b) : ∃ a, x = .ok a ∧ f a = b := by
  cases x with
  | error e => cases h
  | ok a =>
    cases h
    exact ⟨a, rfl, rfl⟩

theorem finite_literal {value : Json} (hv : value.printable = true)
    (h : constantOf value = .ok constant) : Finite (.literal constant) := by
  cases value with
  | integer n =>
    cases h
    exact ⟨rfl, Binary64.isFinite_ofInt (Json.natAbs_lt_of_fits64 hv), fun _ => rfl⟩
  | float x =>
    cases h
    exact ⟨rfl, hv, fun _ => rfl⟩
  | string | bool | null =>
    cases h
    exact ⟨rfl, rfl, fun _ => rfl⟩
  | array | object => cases h

mutual

/-- A description with printable literals makes a schema with finite tags. -/
theorem finite_toSchema {schema : Schema} : (description : Description) →
    description.printable = true → description.toSchema = .ok schema → Finite schema
  | object fields, hd, h => by
    obtain ⟨declared, hfields, rfl⟩ := map_ok h
    have hall := finite_toSchemaFields fields hd hfields
    refine ⟨Schema.finiteTagsFields_iff.mpr fun field hf => (hall field hf).tags, rfl,
      fun discriminator => ?_⟩
    rw [Schema.finiteLiteral]
    split
    · rename_i field hl
      exact (hall _ (mem_of_lookup hl)).number
    · rfl
  | union discriminator options, hd, h => by
    obtain ⟨members, hmembers, rfl⟩ := map_ok h
    have hall := finite_toSchemas options hd hmembers
    exact ⟨Schema.finiteTagsMembers_iff.mpr fun member hm =>
      ⟨(hall member hm).member discriminator, (hall member hm).tags⟩, rfl, fun _ => rfl⟩
  | literal value, hd, h => by
    obtain ⟨constant, hconstant, rfl⟩ := map_ok h
    exact finite_literal hd hconstant
  | array inner, hd, h | optional inner, hd, h | nullable inner, hd, h => by
    obtain ⟨own, hinner, rfl⟩ := map_ok h
    exact ⟨(finite_toSchema inner hd hinner).tags, rfl, fun _ => rfl⟩
  | string, _, h | boolean, _, h | date, _, h | null, _, h | bytes, _, h | number _ _ _, _, h
  | enum _, _, h | bigint, _, h | any, _, h => by
    cases h
    exact ⟨rfl, rfl, fun _ => rfl⟩

theorem finite_toSchemas {schemas : List Schema} : (descriptions : List Description) →
    printableOptions descriptions = true → toSchemas descriptions = .ok schemas →
    ∀ schema ∈ schemas, Finite schema
  | [], _, h => by
    cases h
    exact fun _ hs => absurd hs List.not_mem_nil
  | description :: rest, hd, h => by
    obtain ⟨hdescription, hrest⟩ := (Bool.and_eq_true ..).mp hd
    obtain ⟨schema, hschema, h⟩ := Schema.bind_ok.mp h
    obtain ⟨others, hothers, h⟩ := Schema.bind_ok.mp h
    cases h
    exact List.forall_mem_cons.mpr
      ⟨finite_toSchema description hdescription hschema, finite_toSchemas rest hrest hothers⟩

theorem finite_toSchemaFields {declared : List (String × Schema)} :
    (fields : List (String × Description)) → printableFields fields = true →
    toSchemaFields fields = .ok declared → ∀ field ∈ declared, Finite field.2
  | [], _, h => by
    cases h
    exact fun _ hs => absurd hs List.not_mem_nil
  | (name, description) :: rest, hd, h => by
    obtain ⟨hdescription, hrest⟩ := (Bool.and_eq_true ..).mp hd
    obtain ⟨schema, hschema, h⟩ := Schema.bind_ok.mp h
    obtain ⟨others, hothers, h⟩ := Schema.bind_ok.mp h
    cases h
    exact List.forall_mem_cons.mpr
      ⟨finite_toSchema description hdescription hschema, finite_toSchemaFields rest hrest hothers⟩

end

end Description

theorem Program.readable_of_ofDescription {program : Program} {reader : Json.FloatReader}
    (h : ofDescription text reader = .ok program) :
    ∀ block ∈ program, block.Every Block.Readable := by
  unfold ofDescription at h
  split at h
  · cases h
  · rename_i description hd
    split at h
    · cases h
    · rename_i schema hs
      have hfinite := Description.finite_toSchema description (Description.printable_of_parse? hd) hs
      cases hc : schema.compile with
      | error e =>
        rw [hc] at h
        cases h
      | ok own =>
        rw [hc] at h
        cases h
        exact Schema.readable_compile hc hfinite.tags

end Positional
