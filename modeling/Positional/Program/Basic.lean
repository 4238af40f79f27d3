import Positional.Program.Tag
import Positional.Wire.Kind

/-!
# Programs

A program is a list of blocks; the order of the blocks is the order of the bytes. The same program
drives writing and reading.
-/

namespace Positional

/-- One instruction of a program. Paths start at the root of the document, or at the element within
the blocks of an array of objects. -/
inductive Block where
  | primitive (kind : Kind) (path : Path)
  /-- A counted sequence. The inner blocks run once for each element that is an object. -/
  | array (element : Element) (inner : List Block) (path : Path)
  /-- A tag, then the blocks of the option with that tag. The tag is the field of that name below
  the path. With the empty name it is the presence tag of the slot at the path and no part of the
  data. -/
  | discriminator (kind : Kind) (options : List (Tag × List Block)) (field : String) (path : Path)

abbrev Program := List Block

namespace Block

def path : Block → Path
  | primitive _ path => path
  | array _ _ path => path
  | discriminator _ _ _ path => path

def label : Block → String
  | primitive .. => "primitive"
  | array .. => "array"
  | discriminator .. => "discriminator"

/-- Whether a discriminator with this field name tells presence. -/
def tellsPresence (field : String) : Bool :=
  field == ""

/-- The blocks of the first option whose tag the value carries. -/
def select (options : List (Tag × List Block)) (value : Value) : Option (List Block) :=
  (options.find? fun option => option.1.matchesValue value).map (·.2)

end Block

end Positional
