import Mathlib.Data.List.Nodup
import Positional.Document.Equality
import Positional.Proofs.Document.Lens

/-!
# Documents of the same content

Two objects have the same content when each name finds the same content in both or is in neither. A
document built by assigning values other than objects has distinct field names throughout, so this is
all that has to be checked of it.
-/

namespace Positional

namespace Value

-- ---------------------------------------------------------------------------
-- Distinct names
-- ---------------------------------------------------------------------------

/-- Every object that a path leads to has distinct field names. -/
def Tidy (y : Value) : Prop :=
  ∀ q fields, y.lookup q = some (.object fields) → (fields.map (·.1)).Nodup

theorem tidy_empty : Tidy (.object []) := by
  intro q fields h
  cases q with
  | nil =>
    cases h
    exact List.nodup_nil
  | cons name q => cases h

theorem Tidy.of_not_object (h : ∀ fields, y ≠ .object fields) : Tidy y := by
  intro q fields hq
  cases q with
  | nil => exact absurd (Option.some.inj hq) (h fields)
  | cons name q => cases y <;> first | exact absurd rfl (h _) | cases hq

theorem Tidy.field {y slot : Value} (h : Tidy y) (hf : y.fields.lookup name = some slot) :
    Tidy slot := by
  intro q fields hq
  refine h (name :: q) fields ?_
  rw [lookup, hf]
  exact hq

theorem Tidy.names {y : Value} (h : Tidy y) : (y.fields.map (·.1)).Nodup := by
  cases y with
  | object fields => exact h [] fields rfl
  | _ => exact List.nodup_nil

theorem Tidy.assign {new y : Value} (hn : Tidy new) (h : Tidy y) (p : Path) :
    Tidy (Value.assign new y p) := by
  induction p generalizing y with
  | nil => exact hn
  | cons name p ih =>
    have hslot : Tidy ((y.fields.lookup name).getD .null) := by
      cases hf : y.fields.lookup name with
      | none => exact Tidy.of_not_object (by simp)
      | some field => exact h.field hf
    intro q fields hq
    cases q with
    | nil =>
      cases hq
      rw [names_putField]
      split
      · exact h.names
      · rename_i hnew
        exact List.nodup_append.mpr ⟨h.names, List.nodup_singleton name, by
          rintro a ha b hb rfl
          exact hnew (List.mem_singleton.mp hb ▸ ha)⟩
    | cons other q =>
      simp only [Value.assign, lookup, fields_object, lookup_putField] at hq
      split at hq
      · rename_i found hfound
        split at hfound
        · cases hfound
          exact ih hslot q fields hq
        · exact h.field hfound q fields hq
      · cases hq

theorem tidy_assignAll {y : Value} {writes : List (Path × Value)} (h : Tidy y)
    (hw : ∀ write ∈ writes, Tidy write.2) : Tidy (y.assignAll writes) := by
  induction writes generalizing y with
  | nil => exact h
  | cons write writes ih =>
    exact ih ((hw write (List.mem_cons_self ..)).assign h write.1)
      fun w hmem => hw w (List.mem_cons_of_mem _ hmem)

-- ---------------------------------------------------------------------------
-- Equality of content
-- ---------------------------------------------------------------------------

/-- Both absent, or of the same content. -/
def SameSlot : Option Value → Option Value → Prop
  | none, none => True
  | some a, some b => a.same b = true
  | _, _ => False

theorem sameFields_iff : sameFields ys xs = true ↔
    ∀ field ∈ ys, ∃ b, xs.lookup field.1 = some b ∧ field.2.same b = true := by
  induction ys with
  | nil => simp [sameFields]
  | cons field rest ih =>
    obtain ⟨name, a⟩ := field
    rw [sameFields, Bool.and_eq_true, ih, List.forall_mem_cons]
    cases xs.lookup name <;> simp

theorem mem_names_iff {xs : List (String × Value)} :
    name ∈ xs.map (·.1) ↔ xs.lookup name ≠ none := by
  induction xs with
  | nil => simp
  | cons field rest ih =>
    obtain ⟨other, a⟩ := field
    rw [List.map_cons, List.mem_cons, ih, List.lookup_cons]
    by_cases h : name = other
    · simp [h]
    · simp [h, beq_eq_false_iff_ne.mpr h]

theorem same_object (hy : (ys.map (·.1)).Nodup) (hx : (xs.map (·.1)).Nodup)
    (h : ∀ name, SameSlot (ys.lookup name) (xs.lookup name)) :
    (object ys).same (object xs) = true := by
  have hnames : ∀ name, name ∈ ys.map (·.1) ↔ name ∈ xs.map (·.1) := by
    intro name
    rw [mem_names_iff, mem_names_iff]
    have hname := h name
    cases hys : ys.lookup name <;> cases hxs : xs.lookup name <;> simp_all [SameSlot]
  have hlength : ys.length = xs.length := by
    have hperm := ((List.perm_ext_iff_of_nodup hy hx).mpr hnames).length_eq
    rwa [List.length_map, List.length_map] at hperm
  rw [same, hlength, beq_self_eq_true, Bool.true_and, sameFields_iff]
  intro field hf
  have hname := h field.1
  rw [lookup_of_mem hy hf] at hname
  cases hxs : xs.lookup field.1 with
  | none =>
    rw [hxs] at hname
    exact hname.elim
  | some b =>
    rw [hxs] at hname
    exact ⟨b, rfl, hname⟩

theorem same_array {f : Value → Value} (h : ∀ item ∈ items, (f item).same item = true) :
    (array (items.map f)).same (array items) = true := by
  rw [same]
  induction items with
  | nil => rfl
  | cons item items ih =>
    rw [List.map_cons, sameItems, h item (List.mem_cons_self ..), Bool.true_and]
    exact ih fun i hi => h i (List.mem_cons_of_mem _ hi)

-- ---------------------------------------------------------------------------
-- Content
-- ---------------------------------------------------------------------------

mutual

/-- Whether there is anything but objects in an object, at any depth. -/
def hasContent : Value → Bool
  | object fields => hasContentFields fields
  | _ => true

def hasContentFields : List (String × Value) → Bool
  | [] => false
  | (_, value) :: rest => value.hasContent || hasContentFields rest

end

theorem hasContent_object : (object xs).hasContent = true ↔
    ∃ field ∈ xs, field.2.hasContent = true := by
  rw [hasContent]
  induction xs with
  | nil => simp [hasContentFields]
  | cons field rest ih => simp [hasContentFields, ih]

end Value

end Positional
