import Positional.Proofs.Document.Every

/-!
# The extent of a document

How long the arrays of a document are, how deep they are in one another and how many elements they
have in all. An assignment adds no more than the assigned value has: what was in its place is gone,
everything else is as it was.
-/

namespace Positional

namespace Value

def shortArray (limit : Nat) : Value → Bool
  | array items => items.length ≤ limit
  | _ => true

mutual

/-- How deep arrays are in one another, whatever objects are between them. -/
def nesting : Value → Nat
  | array items => nestingItems items + 1
  | object fields => nestingFields fields
  | _ => 0

def nestingItems : List Value → Nat
  | [] => 0
  | item :: rest => max item.nesting (nestingItems rest)

def nestingFields : List (String × Value) → Nat
  | [] => 0
  | (_, value) :: rest => max value.nesting (nestingFields rest)

end

mutual

/-- How many elements all arrays have together, at whatever depth. -/
def elementTotal : Value → Nat
  | array items => items.length + totalItems items
  | object fields => totalFields fields
  | _ => 0

def totalItems : List Value → Nat
  | [] => 0
  | item :: rest => item.elementTotal + totalItems rest

def totalFields : List (String × Value) → Nat
  | [] => 0
  | (_, value) :: rest => value.elementTotal + totalFields rest

end

theorem nestingItems_le : nestingItems items ≤ bound ↔ ∀ item ∈ items, item.nesting ≤ bound := by
  induction items with
  | nil => simp [nestingItems]
  | cons item rest ih => rw [nestingItems, Nat.max_le, ih, List.forall_mem_cons]

theorem nestingFields_le :
    nestingFields xs ≤ bound ↔ ∀ field ∈ xs, field.2.nesting ≤ bound := by
  induction xs with
  | nil => simp [nestingFields]
  | cons field rest ih => rw [nestingFields, Nat.max_le, ih, List.forall_mem_cons]

theorem totalItems_append (first second : List Value) :
    totalItems (first ++ second) = totalItems first + totalItems second := by
  induction first with
  | nil => simp [totalItems]
  | cons item rest ih => simp [totalItems, ih, Nat.add_assoc]

theorem totalItems_eq_zero (h : ∀ item ∈ items, item.elementTotal = 0) : totalItems items = 0 := by
  induction items with
  | nil => rfl
  | cons item rest ih =>
    obtain ⟨hitem, hrest⟩ := List.forall_mem_cons.mp h
    rw [totalItems, hitem, ih hrest]

-- ---------------------------------------------------------------------------
-- What holds of each field
-- ---------------------------------------------------------------------------

structure Fieldwise (P : Value → Prop) : Prop where
  null : P .null
  object : ∀ xs, P (.object xs) ↔ ∀ field ∈ xs, P field.2

theorem fieldwise_every (h : ∀ xs, test (.object xs) = true) (hnull : test .null = true) :
    Fieldwise fun value => value.every test = true where
  null := hnull
  object xs := by rw [every_object, and_iff_right (h xs)]

theorem fieldwise_nesting (bound : Nat) : Fieldwise fun value => value.nesting ≤ bound where
  null := Nat.zero_le _
  object _ := nestingFields_le

theorem mem_putField (h : field ∈ putField name value xs) : field.2 = value ∨ field ∈ xs := by
  induction xs with
  | nil => exact .inl (congrArg Prod.snd (List.mem_singleton.mp h))
  | cons head rest ih =>
    rw [putField] at h
    split at h
    · rcases List.mem_cons.mp h with rfl | hrest
      · exact .inl rfl
      · exact .inr (List.mem_cons_of_mem _ hrest)
    · rcases List.mem_cons.mp h with rfl | hput
      · exact .inr List.mem_cons_self
      · exact (ih hput).imp_right (List.mem_cons_of_mem _)

theorem Fieldwise.slot {P : Value → Prop} (hP : Fieldwise P) (h : P value) (name : String) :
    P ((value.fields.lookup name).getD .null) := by
  cases hf : value.fields.lookup name with
  | none => exact hP.null
  | some field =>
    cases value with
    | object xs => exact (hP.object _).mp h _ (mem_of_lookup hf)
    | _ => cases hf

theorem Fieldwise.assign {P : Value → Prop} (hP : Fieldwise P) (hnew : P new) (h : P value)
    (path : Path) : P (Value.assign new value path) := by
  induction path generalizing value with
  | nil => exact hnew
  | cons name path ih =>
    refine (hP.object _).mpr fun field hfield => ?_
    rcases mem_putField hfield with hput | hold
    · rw [hput]
      exact ih (hP.slot h name)
    · cases value with
      | object xs => exact (hP.object _).mp h field hold
      | _ => exact absurd hold List.not_mem_nil

theorem Fieldwise.assignAll {P : Value → Prop} (hP : Fieldwise P) {writes : List (Path × Value)}
    (hw : ∀ new ∈ writes.map (·.2), P new) (h : P value) : P (value.assignAll writes) := by
  induction writes generalizing value with
  | nil => exact h
  | cons write rest ih =>
    obtain ⟨hnew, hrest⟩ := List.forall_mem_cons.mp hw
    exact ih hrest (hP.assign hnew h write.1)

-- ---------------------------------------------------------------------------
-- Totals
-- ---------------------------------------------------------------------------

/-- A field that is put takes the place of what stood there. -/
theorem totalFields_putField (name : String) (value : Value) (xs : List (String × Value)) :
    totalFields (putField name value xs) + ((xs.lookup name).getD .null).elementTotal =
      totalFields xs + value.elementTotal := by
  induction xs with
  | nil => simp [putField, totalFields, elementTotal]
  | cons head rest ih =>
    obtain ⟨other, old⟩ := head
    by_cases h : other = name
    · subst h
      simp [putField, totalFields]
      omega
    · rw [putField, if_neg (by simpa using h), List.lookup_cons,
        beq_eq_false_iff_ne.mpr (Ne.symm h), totalFields, totalFields]
      simp only
      omega

theorem elementTotal_assign_le (new value : Value) (path : Path) :
    (Value.assign new value path).elementTotal ≤ value.elementTotal + new.elementTotal := by
  induction path generalizing value with
  | nil => exact Nat.le_add_left ..
  | cons name path ih =>
    have hslot := ih ((value.fields.lookup name).getD .null)
    have hput := totalFields_putField name
      (Value.assign new ((value.fields.lookup name).getD .null) path) value.fields
    have hfields : totalFields value.fields ≤ value.elementTotal := by
      cases value <;> simp [fields, totalFields, elementTotal]
    simp only [Value.assign, elementTotal]
    omega

theorem elementTotal_assignAll_le (value : Value) (writes : List (Path × Value)) :
    (value.assignAll writes).elementTotal ≤ value.elementTotal + totalItems (writes.map (·.2)) := by
  induction writes generalizing value with
  | nil => exact Nat.le_add_right ..
  | cons write rest ih =>
    have hfirst := elementTotal_assign_le write.2 value write.1
    have hrest := ih (Value.assign write.2 value write.1)
    simp only [List.map_cons, totalItems]
    exact Nat.le_trans hrest (by omega)

end Value

end Positional
