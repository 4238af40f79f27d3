import Positional.Program.Basic

/-!
# Listings of programs

A program for a reader's eye: a line for each block, two blanks deeper for the blocks of an array's
elements and four for those of an option, under the option's tag.
-/

namespace Positional

namespace Block

def showPath (path : Path) : String :=
  if path.isEmpty then "<root>" else path.render

def showRole (field : String) : String :=
  if tellsPresence field then "presence" else s!"tag={field}"

def listingLine (indent : Nat) (text : String) : String :=
  String.ofList (List.replicate (2 * indent) ' ') ++ text ++ "\n"

mutual

def listing (indent : Nat) : Block → String
  | primitive kind path => listingLine indent s!"primitive {kind.name} {showPath path}"
  | array element inner path =>
    listingLine indent s!"array {element.name} {showPath path}" ++ listingAll (indent + 1) inner
  | discriminator kind options field path =>
    listingLine indent s!"discriminator {kind.name} {showPath path} [{showRole field}]" ++
      listingOptions indent options

def listingAll (indent : Nat) : List Block → String
  | [] => ""
  | block :: rest => block.listing indent ++ listingAll indent rest

def listingOptions (indent : Nat) : List (Tag × List Block) → String
  | [] => ""
  | (tag, body) :: rest =>
    listingLine (indent + 1) s!"{tag.display} =>" ++ listingAll (indent + 2) body ++
      listingOptions indent rest

end

end Block

namespace Program

def listing (program : Program) : String :=
  Block.listingAll 0 program

end Program

end Positional
