import Positional.Document.Path

/-!
# Paths as lenses

Two paths of which neither leads through the other are apart: an assignment at one is invisible at
the other. What is looked up after assignments at paths pairwise apart is therefore what was
assigned, in whatever order, and everything that is apart from all of them is as it was.
-/

namespace Positional

namespace Path

/-- Neither path leads through the other. -/
def Apart (p q : Path) : Prop := ¬ p <+: q ∧ ¬ q <+: p

theorem Apart.symm (h : Apart p q) : Apart q p := ⟨h.2, h.1⟩

theorem Apart.below (h : Apart p q) (hp : p <+: p') : Apart p' q := by
  constructor
  · intro hq
    exact h.1 (hp.trans hq)
  · intro hq
    rcases List.prefix_or_prefix_of_prefix hp hq with hpq | hqp
    · exact h.1 hpq
    · exact h.2 hqp

theorem below_child (p : Path) (name : String) : p <+: p.child name := List.prefix_append ..

theorem not_child_below (p : Path) (name : String) : ¬ p.child name <+: p := by
  intro h
  have hlen := h.length_le
  rw [child, List.length_append, List.length_singleton] at hlen
  omega

theorem child_ne_self (p : Path) (name : String) : p.child name ≠ p := by
  intro h
  have hnot := not_child_below p name
  rw [h] at hnot
  exact hnot List.prefix_rfl

theorem child_ne_nil (p : Path) (name : String) : p.child name ≠ [] := by simp [child]

theorem apart_child (p : Path) (h : a ≠ b) : Apart (p.child a) (p.child b) := by
  have hne : ∀ {a b : String}, a ≠ b → ¬ p.child a <+: p.child b := by
    intro a b hab hp
    have heq : p.child a = p.child b := hp.eq_of_length (by simp [child])
    simp only [child, List.append_cancel_left_eq, List.cons.injEq, and_true] at heq
    exact hab heq
  exact ⟨hne h, hne h.symm⟩

theorem Apart.of_cons (h : Apart (name :: p) (name :: q)) : Apart p q :=
  ⟨fun hp => h.1 (List.cons_prefix_cons.mpr ⟨rfl, hp⟩),
    fun hp => h.2 (List.cons_prefix_cons.mpr ⟨rfl, hp⟩)⟩

end Path

theorem lookup_of_mem {fields : List (String × α)} (hn : (fields.map (·.1)).Nodup)
    (h : (name, a) ∈ fields) : fields.lookup name = some a := by
  induction fields with
  | nil => cases h
  | cons field rest ih =>
    obtain ⟨other, b⟩ := field
    obtain ⟨hother, hrest⟩ := List.nodup_cons.mp hn
    rcases List.mem_cons.mp h with heq | hmem
    · cases heq
      simp
    · have hne : name ≠ other := by
        rintro rfl
        exact hother (List.mem_map.mpr ⟨_, hmem, rfl⟩)
      rw [List.lookup_cons, beq_eq_false_iff_ne.mpr hne]
      exact ih hrest hmem

theorem mem_of_lookup {fields : List (String × α)} (h : fields.lookup name = some a) :
    (name, a) ∈ fields := by
  induction fields with
  | nil => cases h
  | cons field rest ih =>
    obtain ⟨other, b⟩ := field
    rw [List.lookup_cons] at h
    by_cases hn : name = other
    · simp_all
    · simp only [beq_eq_false_iff_ne.mpr hn] at h
      exact List.mem_cons_of_mem _ (ih h)

namespace Value

-- ---------------------------------------------------------------------------
-- Looking up
-- ---------------------------------------------------------------------------

@[simp] theorem fields_object (fields : List (String × Value)) : (object fields).fields = fields := rfl

theorem lookup_append (v : Value) (p q : Path) :
    v.lookup (p ++ q) = (v.lookup p).bind (·.lookup q) := by
  induction p generalizing v with
  | nil => rfl
  | cons name p ih =>
    simp only [List.cons_append, lookup]
    cases v.fields.lookup name with
    | none => rfl
    | some field => exact ih field

theorem lookup_child (v : Value) (p : Path) (name : String) :
    v.lookup (p.child name) = (v.lookup p).bind (·.fields.lookup name) := by
  rw [Path.child, lookup_append]
  congr 1
  funext field
  simp only [lookup]
  cases field.fields.lookup name <;> rfl

theorem lookup_congr {v w : Value} (h : v.lookup p = w.lookup p) (hp : p <+: q) :
    v.lookup q = w.lookup q := by
  obtain ⟨rest, rfl⟩ := hp
  rw [lookup_append, lookup_append, h]

theorem lookup_none_below {v : Value} (h : v.lookup p = none) (hp : p <+: q) :
    v.lookup q = none := by
  obtain ⟨rest, rfl⟩ := hp
  rw [lookup_append, h]
  rfl

/-- Strictly below a slot something is found only if the slot holds an object. -/
theorem object_of_lookup_below {v : Value} (h : v.lookup q = some found) (hp : p <+: q)
    (hne : q ≠ p) : ∃ fields, v.lookup p = some (.object fields) := by
  obtain ⟨rest, rfl⟩ := hp
  rw [lookup_append] at h
  cases hv : v.lookup p with
  | none => simp [hv] at h
  | some slot =>
    cases rest with
    | nil => simp at hne
    | cons name rest =>
      cases slot with
      | object fields => exact ⟨fields, rfl⟩
      | _ => simp [hv, lookup, fields] at h

-- ---------------------------------------------------------------------------
-- Assigning
-- ---------------------------------------------------------------------------

theorem lookup_assign_of_apart (new v : Value) (h : Path.Apart p q) :
    (assign new v p).lookup q = v.lookup q := by
  induction p generalizing v q with
  | nil => exact absurd (List.nil_prefix) h.1
  | cons name p ih =>
    cases q with
    | nil => exact absurd (List.nil_prefix) h.2
    | cons other q =>
      simp only [assign, lookup, fields_object, lookup_putField]
      by_cases hn : other = name
      · subst hn
        have happ := h.of_cons
        simp only [↓reduceIte, ih _ happ]
        cases hf : v.fields.lookup other with
        | some slot => simp
        | none =>
          -- the fresh slot is no object, so nothing is found below it
          cases q with
          | nil => exact absurd (List.nil_prefix) happ.2
          | cons => simp [lookup, fields]
      · simp [hn]

theorem assignAll_append (v : Value) (first second : List (Path × Value)) :
    v.assignAll (first ++ second) = (v.assignAll first).assignAll second :=
  List.foldl_append

theorem lookup_assignAll_of_apart (v : Value) {writes : List (Path × Value)}
    (h : ∀ write ∈ writes, Path.Apart write.1 q) :
    (v.assignAll writes).lookup q = v.lookup q := by
  induction writes generalizing v with
  | nil => rfl
  | cons write writes ih =>
    have hrest := ih (assign write.2 v write.1) fun w hw => h w (List.mem_cons_of_mem _ hw)
    exact hrest.trans (lookup_assign_of_apart _ _ (h write (List.mem_cons_self ..)))

/-- Assignments at paths pairwise apart are all kept. -/
theorem lookup_assignAll_of_mem (v : Value) {writes : List (Path × Value)}
    (h : writes.Pairwise fun a b => Path.Apart a.1 b.1) (hw : write ∈ writes) :
    (v.assignAll writes).lookup write.1 = some write.2 := by
  induction writes generalizing v with
  | nil => cases hw
  | cons first rest ih =>
    obtain ⟨hfirst, hrest⟩ := List.pairwise_cons.mp h
    rcases List.mem_cons.mp hw with rfl | hw
    · have hkeep := lookup_assignAll_of_apart (assign write.2 v write.1)
        fun w hw => (hfirst w hw).symm
      exact hkeep.trans (lookup_assign ..)
    · exact ih (assign first.2 v first.1) hrest hw

/-- After assignments pairwise apart, one of them at a path or below it, the path is taken; by null
only if that is what was assigned. -/
theorem present_of_write (v : Value) {writes : List (Path × Value)}
    (h : writes.Pairwise fun a b => Path.Apart a.1 b.1) (hw : write ∈ writes) (hp : p <+: write.1)
    (hne : write ≠ (p, .null)) : ∃ found, (v.assignAll writes).lookup p = some found ∧ found ≠ .null := by
  have hkept := lookup_assignAll_of_mem v h hw
  by_cases hq : write.1 = p
  · refine ⟨write.2, hq ▸ hkept, ?_⟩
    rintro hnull
    exact hne (Prod.ext hq hnull)
  · obtain ⟨fields, hfields⟩ := object_of_lookup_below hkept hp hq
    exact ⟨.object fields, hfields, by simp⟩

-- ---------------------------------------------------------------------------
-- Blank slots
-- ---------------------------------------------------------------------------

/-- Nothing is at the path or below it. The root itself is always there, so at the empty path this
says that the document has no fields. -/
def Blank (v : Value) (p : Path) : Prop := ∀ q, p <+: q → q ≠ [] → v.lookup q = none

theorem blank_empty (p : Path) : Blank (.object []) p := by
  intro q _ hq
  cases q with
  | nil => exact absurd rfl hq
  | cons name q => rfl

theorem Blank.below {v : Value} (h : Blank v p) (hp : p <+: p') : Blank v p' :=
  fun q hq => h q (hp.trans hq)

theorem Blank.assignAll {v : Value} (h : Blank v p)
    (hw : ∀ write ∈ writes, Path.Apart write.1 p) : Blank (v.assignAll writes) p := by
  intro q hq hne
  have hkeep := lookup_assignAll_of_apart v (q := q) fun write hmem =>
    ((hw write hmem).symm.below hq).symm
  exact hkeep.trans (h q hq hne)

theorem Blank.assign {v : Value} (h : Blank v p) (hq : Path.Apart q p) :
    Blank (Value.assign new v q) p := by
  have hw : ∀ write ∈ [(q, new)], Path.Apart write.1 p := by simpa using hq
  exact h.assignAll hw

end Value

end Positional
