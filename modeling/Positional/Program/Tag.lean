import Positional.Binary64.Shortest
import Positional.Document.Basic
import Positional.Text.Quoted

/-!
# Option tags

The tag that stands for an option of a discriminator, how it is matched with data, and its text in
listings.
-/

namespace Positional

inductive Tag where
  | bool (flag : Bool)
  | int (n : Int64)
  | float (x : Binary64)
  | string (text : String)
deriving DecidableEq

namespace Tag

/-- Whether a value carries the tag. A float tag compares as floats, so an integer is rounded before
it is compared; an integer tag is rounded likewise before it is compared with a float. -/
def matchesValue : Tag → Value → Bool
  | .bool tag, .bool flag => tag == flag
  | .string tag, .text content => tag == content
  | .int tag, .int n => tag == n
  | .int tag, .uint n => tag.toInt == n.toNat
  | .int tag, .float x => x.isIntegral && (Binary64.ofInt tag.toInt).equals x
  | .float tag, value =>
    match value.toBinary64? with
    | some x => x.equals tag
    | none => false
  | _, _ => false

/-- Float tags are plain from `0.0001` up to below `1e16`; a positive exponent has no sign, and a
decimal halfway between two goes to the upper one. -/
def floatLayout : FloatLayout :=
  ⟨.up, -4, 15, false⟩

example : floatLayout.text ⟨0x8000000000000000⟩ = "-0.0".toList := by decide +kernel
example : floatLayout.text ⟨0x3f1a36e2eb1c432d⟩ = "0.0001".toList := by decide +kernel
example : floatLayout.text ⟨0x3ee4f8b588e368f1⟩ = "1e-5".toList := by decide +kernel
example : floatLayout.text ⟨0x4341c37937e08000⟩ = "1e16".toList := by decide +kernel
example : floatLayout.text ⟨0x4310000000000001⟩ = "1125899906842624.3".toList := by decide +kernel

def display : Tag → String
  | .bool flag => if flag then "true" else "false"
  | .int n => toString n.toInt
  | .float x => String.ofList (floatLayout.text x)
  | .string text => quoted text

end Tag

end Positional
