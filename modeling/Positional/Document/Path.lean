import Positional.Document.Basic

/-!
# Paths into documents

A path names a slot by the fields that lead to it. Looking up goes through objects only; assigning
makes the objects it needs, so it never fails.
-/

namespace Positional

abbrev Path := List String

namespace Path

def child (path : Path) (name : String) : Path :=
  path ++ [name]

def render (path : Path) : String :=
  ".".intercalate path

end Path

namespace Value

def lookup : Value → Path → Option Value
  | value, [] => some value
  | value, name :: path =>
    match value.fields.lookup name with
    | some field => field.lookup path
    | none => none

/-- The value with `new` at `path`. A step that is missing or no object becomes a fresh object in
the same position; a new field comes last. -/
def assign (new : Value) : Value → Path → Value
  | _, [] => new
  | value, name :: path =>
    let slot := (value.fields.lookup name).getD .null
    .object (putField name (assign new slot path) value.fields)

theorem lookup_assign (new : Value) (value : Value) (path : Path) :
    (assign new value path).lookup path = some new := by
  induction path generalizing value with
  | nil => rfl
  | cons name path ih => simp [assign, lookup, fields, lookup_putField, ih]

def assignAll (value : Value) (writes : List (Path × Value)) : Value :=
  writes.foldl (fun done write => assign write.2 done write.1) value

end Value

end Positional
