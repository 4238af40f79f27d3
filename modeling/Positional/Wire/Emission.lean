import Positional.Error

/-!
# Emissions

What a run of the writer leaves behind: the bytes it wrote, and the failure that stopped it, if one
did. Emissions compose like the runs they stand for: nothing follows a failure.
-/

namespace Positional

structure Emission where
  bytes : Bytes
  failure : Option Error
deriving DecidableEq

namespace Emission

def ofBytes (bytes : Bytes) : Emission :=
  ⟨bytes, none⟩

def empty : Emission :=
  ofBytes []

def fail (error : Error) : Emission :=
  ⟨[], some error⟩

/-- One run and then, unless it failed, another. -/
def append (first second : Emission) : Emission :=
  match first.failure with
  | none => ⟨first.bytes ++ second.bytes, second.failure⟩
  | some _ => first

instance : Append Emission := ⟨append⟩

def concat : List Emission → Emission
  | [] => empty
  | first :: rest => first ++ concat rest

def toExcept (emission : Emission) : Except Error Bytes :=
  match emission.failure with
  | none => .ok emission.bytes
  | some error => .error error

def ofExcept : Except Error Bytes → Emission
  | .ok bytes => ofBytes bytes
  | .error error => fail error

@[simp] theorem empty_append (e : Emission) : empty ++ e = e := rfl

@[simp] theorem append_empty (e : Emission) : e ++ empty = e := by
  obtain ⟨bytes, failure⟩ := e
  cases failure with
  | none => exact congrArg (Emission.mk · none) (List.append_nil bytes)
  | some _ => rfl

theorem append_assoc (a b c : Emission) : a ++ b ++ c = a ++ (b ++ c) := by
  obtain ⟨abytes, afailure⟩ := a
  obtain ⟨bbytes, bfailure⟩ := b
  cases afailure with
  | some _ => rfl
  | none =>
    cases bfailure with
    | none => exact congrArg (Emission.mk · c.failure) (List.append_assoc abytes bbytes c.bytes)
    | some _ => rfl

@[simp] theorem fail_append (error : Error) (e : Emission) : fail error ++ e = fail error := rfl

end Emission

end Positional
