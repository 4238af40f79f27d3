import Mathlib.Data.List.Nodup
import Positional.Proofs.Document.Lens

/-!
# Tests of every part of a document

Some facts hold of a document because they hold of everything in it, at whatever depth: that no
object repeats a name, that every float is a number.
-/

namespace Positional

namespace Value

mutual

def every (test : Value → Bool) : Value → Bool
  | array items => test (array items) && everyItem test items
  | object fields => test (object fields) && everyField test fields
  | other => test other

def everyItem (test : Value → Bool) : List Value → Bool
  | [] => true
  | item :: rest => item.every test && everyItem test rest

def everyField (test : Value → Bool) : List (String × Value) → Bool
  | [] => true
  | (_, value) :: rest => value.every test && everyField test rest

end

/-- Whether a value, if it is an object, has each of its names once. -/
def namesOnce : Value → Bool
  | object fields => decide (fields.map (·.1)).Nodup
  | _ => true

def floatPasses (test : Binary64 → Bool) : Value → Bool
  | float x => test x
  | _ => true

variable {test : Value → Bool}

theorem everyItem_iff : everyItem test items = true ↔ ∀ item ∈ items, item.every test = true := by
  induction items with
  | nil => simp [everyItem]
  | cons item rest ih => simp [everyItem, ih]

theorem everyField_iff :
    everyField test xs = true ↔ ∀ field ∈ xs, field.2.every test = true := by
  induction xs with
  | nil => simp [everyField]
  | cons field rest ih => simp [everyField, ih]

@[simp] theorem every_array : (array items).every test = true ↔
    test (array items) = true ∧ ∀ item ∈ items, item.every test = true := by
  rw [every, Bool.and_eq_true, everyItem_iff]

@[simp] theorem every_object : (object xs).every test = true ↔
    test (object xs) = true ∧ ∀ field ∈ xs, field.2.every test = true := by
  rw [every, Bool.and_eq_true, everyField_iff]

theorem test_of_every {value : Value} (h : value.every test = true) : test value = true := by
  cases value with
  | array items => exact (every_array.mp h).1
  | object fields => exact (every_object.mp h).1
  | _ => exact h

theorem every_field {value field : Value} (h : value.every test = true)
    (hf : value.fields.lookup name = some field) : field.every test = true := by
  cases value with
  | object fields => exact (every_object.mp h).2 _ (mem_of_lookup hf)
  | _ => cases hf

theorem names_nodup {value : Value} (h : value.every namesOnce = true) :
    (value.fields.map (·.1)).Nodup := by
  cases value with
  | object fields => simpa [namesOnce] using test_of_every h
  | _ => exact List.nodup_nil

end Value

end Positional
