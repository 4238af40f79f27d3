import Positional.Binary64.Rounding
import Positional.Integer

/-!
# Document values

The data a program writes and reads. Numbers keep the variant they came in; what they denote is
asked through `Value.integer?` and `Value.toBinary64?`, which see through the variant.
-/

namespace Positional

abbrev Bytes := List UInt8

/-- A document value. An object's fields are in insertion order and its names are distinct; every
operation of this library keeps them so. -/
inductive Value where
  | null
  | bool (flag : Bool)
  | int (n : Int64)
  | uint (n : UInt64)
  | float (x : Binary64)
  /-- A point in time, in milliseconds since 1970. -/
  | date (ticks : Int64)
  | bytes (content : Bytes)
  | text (content : String)
  | array (items : List Value)
  | object (fields : List (String × Value))
deriving Inhabited

/-- Gives a field its value: in place if the name is there, at the end if it is new. -/
def putField (name : String) (value : Value) : List (String × Value) → List (String × Value)
  | [] => [(name, value)]
  | (other, old) :: rest =>
    if other == name then (other, value) :: rest else (other, old) :: putField name value rest

theorem lookup_putField (name other : String) (value : Value) (fields : List (String × Value)) :
    (putField name value fields).lookup other =
      if other = name then some value else fields.lookup other := by
  induction fields with
  | nil =>
    by_cases h : other = name
    · simp [putField, h]
    · simp [putField, List.lookup_cons, h, beq_eq_false_iff_ne.mpr h]
  | cons head rest ih =>
    obtain ⟨first, old⟩ := head
    by_cases same : first = name
    · subst same
      by_cases h : other = first
      · subst h; simp [putField]
      · simp [putField, h, List.lookup_cons, beq_eq_false_iff_ne.mpr h]
    · rw [putField, if_neg (by simpa using same)]
      by_cases h : other = first
      · subst h; simp [same]
      · simp [List.lookup_cons, beq_eq_false_iff_ne.mpr h, ih]

/-- A name that is there keeps its position; a new one comes last. -/
theorem names_putField (name : String) (value : Value) (fields : List (String × Value)) :
    (putField name value fields).map (·.1) =
      if name ∈ fields.map (·.1) then fields.map (·.1) else fields.map (·.1) ++ [name] := by
  induction fields with
  | nil => rfl
  | cons head rest ih =>
    obtain ⟨first, old⟩ := head
    by_cases same : first = name
    · subst same; simp [putField]
    · rw [putField, if_neg (by simpa using same), List.map_cons, ih]
      by_cases h : name ∈ rest.map (·.1)
      · simp [h]
      · simp [h, Ne.symm same]

namespace Value

/-- An object from its fields. A repeated name keeps its first position and takes its last value. -/
def ofFields (fields : List (String × Value)) : Value :=
  .object (fields.foldl (fun done field => putField field.1 field.2 done) [])

def fields : Value → List (String × Value)
  | .object fields => fields
  | _ => []

def variantName : Value → String
  | .null => "Null"
  | .bool _ => "Bool"
  | .int _ => "I64"
  | .uint _ => "U64"
  | .float _ => "F64"
  | .date _ => "Date"
  | .bytes _ => "Bytes"
  | .text _ => "String"
  | .array _ => "Array"
  | .object _ => "Object"

/-- The whole number that a numeric value denotes, if it denotes one. Dates are not numbers. -/
def integer? : Value → Option Int
  | .int n => some n.toInt
  | .uint n => some n.toNat
  | .float x => x.toInt?
  | _ => none

def toInt64? (value : Value) : Option Int64 :=
  value.integer?.bind int64?

def toUInt64? (value : Value) : Option UInt64 :=
  value.integer?.bind uint64?

def toByte? (value : Value) : Option UInt8 :=
  match value.integer? with
  | some n => if 0 ≤ n && n < 256 then some (UInt8.ofNat n.toNat) else none
  | none => none

/-- Any numeric value as a float; integers are rounded to the nearest. -/
def toBinary64? : Value → Option Binary64
  | .int n => some (.ofInt n.toInt)
  | .uint n => some (.ofInt n.toNat)
  | .float x => some x
  | _ => none

end Value

/-- The state of an optional slot as a tag: absent 0, present 1, null 2. -/
def presenceTag : Option Value → UInt64
  | none => 0
  | some .null => 2
  | some _ => 1

end Positional
