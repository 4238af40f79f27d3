import Positional.Document.Basic

/-!
# Schemas

Descriptions of document types, as far as the wire depends on them.
-/

namespace Positional

inductive NumberCheck where
  | int
  | min (bound : Binary64) (inclusive : Bool)
  | max (bound : Binary64) (inclusive : Bool)
deriving DecidableEq

inductive Constant where
  | text (content : String)
  | number (x : Binary64)
  | flag (value : Bool)
  | bigint (n : Int)
  | null
deriving DecidableEq

/-- A candidate that a refinement is asked about. -/
inductive Probe where
  | bytes (content : Bytes)
  | words (content : List UInt32)
  | value (content : Value)

inductive Schema where
  | object (fields : List (String × Schema))
  /-- One of several records, told apart by the field of that name. -/
  | union (discriminator : String) (members : List Schema)
  | string
  | boolean
  | number (checks : List NumberCheck)
  | date
  | null
  | enum (values : List String)
  | literal (constant : Constant)
  | array (element : Schema)
  | optional (inner : Schema)
  | nullable (inner : Schema)
  | refined (accepts : Probe → Bool) (inner : Schema)
  | transformed (inner : Schema)
  | bigint
  | any

namespace Schema

/-- Whether a check tells byte buffers from other arrays of numbers, asked of the empty ones. -/
def isBytesCheck (accepts : Probe → Bool) : Bool :=
  accepts (.bytes []) && !accepts (.words [])

def isByteBuffer : Probe → Bool
  | .bytes _ => true
  | _ => false

def byteBuffer : Schema :=
  refined isByteBuffer any

end Schema

end Positional
