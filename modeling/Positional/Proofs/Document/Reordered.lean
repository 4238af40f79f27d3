import Positional.Proofs.Document.Lens

/-!
# The laws of assigning

What is assigned at a path is found there and below; assigning there once more forgets it, and
assigning what is there changes nothing. Assignments at paths that are apart do not see each other.
Their order shows in the order of new fields alone, since a field that is there keeps its position
and a new one comes last.
-/

namespace Positional

-- ---------------------------------------------------------------------------
-- Fields
-- ---------------------------------------------------------------------------

theorem exists_putField_eq (name : String) (fields : List (String × Value)) :
    ∃ before after, ∀ value, putField name value fields = before ++ (name, value) :: after := by
  induction fields with
  | nil => exact ⟨[], [], fun _ => rfl⟩
  | cons field rest ih =>
    obtain ⟨other, old⟩ := field
    by_cases h : other = name
    · exact ⟨[], rest, fun _ => by simp [putField, h]⟩
    · obtain ⟨before, after, hput⟩ := ih
      exact ⟨(other, old) :: before, after, fun _ => by simp [putField, h, hput]⟩

theorem putField_putField (name : String) (old new : Value) (fields : List (String × Value)) :
    putField name new (putField name old fields) = putField name new fields := by
  induction fields with
  | nil => simp [putField]
  | cons field rest ih =>
    obtain ⟨other, value⟩ := field
    by_cases h : other = name
    · simp [putField, h]
    · simp [putField, h, ih]

theorem putField_of_lookup (h : fields.lookup name = some value) :
    putField name value fields = fields := by
  induction fields with
  | nil => cases h
  | cons field rest ih =>
    obtain ⟨other, old⟩ := field
    by_cases hname : other = name
    · subst hname
      simp_all [putField]
    · simp [List.lookup_cons, beq_eq_false_iff_ne.mpr (Ne.symm hname)] at h
      simp [putField, hname, ih h]

/-- Two fields are put in either order, up to the order of those that are new. -/
theorem perm_putField_putField {a b : String} (h : a ≠ b) (x y : Value)
    (fields : List (String × Value)) :
    (putField b y (putField a x fields)).Perm (putField a x (putField b y fields)) := by
  induction fields with
  | nil => simp [putField, h, h.symm, List.Perm.swap]
  | cons field rest ih =>
    obtain ⟨other, old⟩ := field
    by_cases ha : other = a
    · subst ha
      simp [putField, h]
    · by_cases hb : other = b
      · subst hb
        simp [putField, ha]
      · simp [putField, ha, hb, ih]

namespace Value

/-- The documents differ in the order of fields at most, at whatever depth. -/
inductive Reordered : Value → Value → Prop
  | refl : Reordered v v
  | trans (h : Reordered u v) (h' : Reordered v w) : Reordered u w
  | fields (h : xs.Perm ys) : Reordered (.object xs) (.object ys)
  | field (h : Reordered v w) :
      Reordered (.object (before ++ (name, v) :: after)) (.object (before ++ (name, w) :: after))
  | item (h : Reordered v w) :
      Reordered (.array (before ++ v :: after)) (.array (before ++ w :: after))

theorem Reordered.putField (h : Reordered v w) (name : String) (fields : List (String × Value)) :
    Reordered (.object (putField name v fields)) (.object (putField name w fields)) := by
  obtain ⟨before, after, hput⟩ := exists_putField_eq name fields
  rw [hput, hput]
  exact .field h

/-- The names of the fields at a path, in order. What is missing or no object has none. -/
def namesAt (v : Value) (p : Path) : List String :=
  ((v.lookup p).getD .null).fields.map (·.1)

-- ---------------------------------------------------------------------------
-- One path
-- ---------------------------------------------------------------------------

/-- Assigning below a slot assigns the slot, with what it holds changed. -/
theorem assign_append (new v : Value) (p q : Path) :
    assign new v (p ++ q) = assign (assign new ((v.lookup p).getD .null) q) v p := by
  induction p generalizing v with
  | nil => rfl
  | cons name p ih =>
    have hslot : (v.lookup (name :: p)).getD .null
        = (((v.fields.lookup name).getD .null).lookup p).getD .null := by
      simp only [lookup]
      cases v.fields.lookup name with
      | some slot => rfl
      | none => cases p <;> rfl
    simp [assign, ih, hslot]

theorem assign_assign (old new v : Value) (p : Path) :
    assign new (assign old v p) p = assign new v p := by
  induction p generalizing v with
  | nil => rfl
  | cons name p ih => simp [assign, lookup_putField, putField_putField, ih]

theorem assign_of_lookup {v : Value} (h : v.lookup p = some found) : assign found v p = v := by
  induction p generalizing v with
  | nil => exact (Option.some.inj h).symm
  | cons name p ih =>
    simp only [lookup] at h
    split at h
    · rename_i slot hslot
      cases v with
      | object xs =>
        simp only [fields_object] at hslot
        simp [assign, hslot, ih h, putField_of_lookup hslot]
      | _ => cases hslot
    · cases h

/-- On the way to the path each step is an object, with its own names and perhaps a new one behind. -/
theorem namesAt_assign (new v : Value) (p q : Path) (name : String) :
    (∃ xs, (assign new v (p ++ name :: q)).lookup p = some (.object xs)) ∧
      (assign new v (p ++ name :: q)).namesAt p =
        if name ∈ v.namesAt p then v.namesAt p else v.namesAt p ++ [name] := by
  have hslot := lookup_assign (assign new ((v.lookup p).getD .null) (name :: q)) v p
  rw [← assign_append] at hslot
  refine ⟨⟨_, hslot⟩, ?_⟩
  simp only [namesAt, hslot, assign, Option.getD_some, fields_object]
  exact names_putField ..

-- ---------------------------------------------------------------------------
-- Two paths
-- ---------------------------------------------------------------------------

/-- Assignments at paths apart are made in either order, up to the order of fields. -/
theorem reordered_assign (v w r : Value) (h : Path.Apart p q) :
    Reordered (assign w (assign v r p) q) (assign v (assign w r q) p) := by
  induction p generalizing r q with
  | nil => exact absurd List.nil_prefix h.1
  | cons a p ih =>
    cases q with
    | nil => exact absurd List.nil_prefix h.2
    | cons b q =>
      by_cases hab : a = b
      · -- the paths go on together, in the object that the first assignment makes if there is none
        subst hab
        simp only [assign, fields_object, lookup_putField, if_true, Option.getD_some,
          putField_putField]
        exact (ih _ h.of_cons).putField a _
      · simp only [assign, fields_object, lookup_putField, if_neg hab, if_neg (Ne.symm hab)]
        exact .fields (perm_putField_putField hab _ _ _)

/-- What is assigned is found at its path and below; a further assignment there replaces it, and
assigning what is there is no change. Apart from the path everything is found as before, and two
assignments apart are made in either order, up to the order of fields. Each step on the way is an
object whose fields are where they were, a new one last. -/
theorem assign_lawful (r v w : Value) (p q : Path) :
    (assign v r p).lookup p = some v ∧
    (∀ s, (assign v r p).lookup (p ++ s) = v.lookup s) ∧
    assign w (assign v r p) p = assign w r p ∧
    (∀ u, r.lookup p = some u → assign u r p = r) ∧
    (Path.Apart p q → (assign v r p).lookup q = r.lookup q ∧
      Reordered (assign w (assign v r p) q) (assign v (assign w r q) p)) ∧
    ∀ front name rest, p = front ++ name :: rest →
      (∃ xs, (assign v r p).lookup front = some (.object xs)) ∧
      (assign v r p).namesAt front =
        if name ∈ r.namesAt front then r.namesAt front else r.namesAt front ++ [name] := by
  refine ⟨lookup_assign v r p, fun s => ?_, assign_assign v w r p, fun u => assign_of_lookup,
    fun h => ⟨lookup_assign_of_apart v r h, reordered_assign v w r h⟩, ?_⟩
  · simp [lookup_append, lookup_assign]
  · rintro front name rest rfl
    exact namesAt_assign v r front rest name

/-- A scalar on the way makes room for an object, in which the order of the assignments shows. -/
theorem assign_lawful_scalar :
    let r := object [("a", .int 5), ("b", .null)]
    Path.Apart ["a", "x"] ["a", "y"] ∧
      assign (.int 2) (assign (.int 1) r ["a", "x"]) ["a", "y"]
        = object [("a", object [("x", .int 1), ("y", .int 2)]), ("b", .null)] ∧
      assign (.int 1) (assign (.int 2) r ["a", "y"]) ["a", "x"]
        = object [("a", object [("y", .int 2), ("x", .int 1)]), ("b", .null)] ∧
      Reordered (assign (.int 2) (assign (.int 1) r ["a", "x"]) ["a", "y"])
        (assign (.int 1) (assign (.int 2) r ["a", "y"]) ["a", "x"]) ∧
      (assign (.int 1) r ["a", "x"]).lookup ["a", "y"] = none ∧
      assign .null r ["b"] = r ∧
      (assign (.int 1) r ["a", "x"]).namesAt ["a"] = ["x"] := by
  intro r
  have happ : Path.Apart ["a", "x"] ["a", "y"] := ⟨by decide, by decide⟩
  obtain ⟨-, -, -, -, hapart, hnames⟩ := assign_lawful r (.int 1) (.int 2) ["a", "x"] ["a", "y"]
  obtain ⟨hframe, horder⟩ := hapart happ
  have hsame := (assign_lawful r .null .null ["b"] []).2.2.2.1 .null rfl
  exact ⟨happ, rfl, rfl, horder, hframe, hsame, (hnames ["a"] "x" [] rfl).2⟩

end Value

end Positional
