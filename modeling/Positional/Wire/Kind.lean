import Positional.Error

/-!
# Kinds of scalars

The names under which a program says how a scalar goes over the wire. A name outside the known ones
is kept as it is; it fails when a run reaches it.
-/

namespace Positional

inductive Kind where
  | string
  | float
  | int
  | uint
  | boolean
  | date
  | buffer
  | null
  | unknown (name : String)
deriving DecidableEq

namespace Kind

def name : Kind → String
  | string => "string"
  | float => "float"
  | int => "int"
  | uint => "uint"
  | boolean => "boolean"
  | date => "date"
  | buffer => "buffer"
  | null => "null"
  | unknown name => name

def ofName (name : String) : Kind :=
  match name with
  | "string" => string
  | "float" => float
  | "int" => int
  | "uint" => uint
  | "boolean" => boolean
  | "date" => date
  | "buffer" => buffer
  | "null" => null
  | other => unknown other

/-- Refuses a name outside the known ones. -/
def check : Kind → Except Error Unit
  | unknown name => .error (.unknownKind name)
  | _ => .ok ()

theorem ofName_name (kind : Kind) (known : kind.check = .ok ()) : ofName kind.name = kind := by
  cases kind with
  | unknown _ => cases known
  | _ => rfl

end Kind

/-- What the elements of an array are: scalars of one kind, or objects with blocks of their own. -/
inductive Element where
  | scalar (kind : Kind)
  | object
deriving DecidableEq

namespace Element

def name : Element → String
  | scalar kind => kind.name
  | object => "object"

def ofName (name : String) : Element :=
  if name == "object" then object else scalar (Kind.ofName name)

def check : Element → Except Error Unit
  | scalar kind => kind.check
  | object => .ok ()

end Element

end Positional
