import Mathlib.Data.List.Forall2
import Positional.Proofs.Schema.Supported

/-!
# The order of a frame

Every node in the frame of a schema has one block there, which is the same whatever the frame holds.
The blocks of unions go in front, each before those that were there, and all others go behind: of a
frame that is extended, the new unions stand first, in reverse order of declaration, then what was
there, then everything else in order of declaration.
-/

namespace Positional

namespace Schema

def isUnion : Schema → Bool
  | union _ _ => true
  | _ => false

mutual

/-- The nodes with a block in the frame of a schema, in order of declaration, with their paths. Objects
and refinements other than byte buffers have none of their own; what an array, a slot or a union holds
is in frames of its own. -/
def frameNodes : Schema → Path → List (Schema × Path)
  | object fields, path => fieldNodes fields path
  | refined accepts inner, path =>
    if isBytesCheck accepts then [(refined accepts inner, path)] else inner.frameNodes path
  | node, path => [(node, path)]

def fieldNodes : List (String × Schema) → Path → List (Schema × Path)
  | [], _ => []
  | (name, field) :: rest, path => field.frameNodes (path.child name) ++ fieldNodes rest path

end

/-- The block is all that the node compiles to in a frame of its own. -/
def HasBlock (node : Schema × Path) (block : Block) : Prop :=
  node.1.compileInto node.2 [] = .ok [block]

theorem frameNodes_leaf {schema : Schema} (h : schema.leafKind? = some kind) :
    schema.frameNodes path = [(schema, path)] ∧ schema.isUnion = false := by
  cases schema with
  | refined accepts inner => simp [frameNodes, isUnion, (refined_leaf h).1]
  | _ => first | exact ⟨rfl, rfl⟩ | cases h

theorem frameNodes_slot {schema inner : Schema} (hi : schema.slotOf? = some inner) :
    schema.frameNodes path = [(schema, path)] ∧ schema.isUnion = false := by
  cases schema <;> first | exact ⟨rfl, rfl⟩ | cases hi

theorem discriminator_of_hasBlock {members : List Schema}
    (h : HasBlock (union discriminator members, path) block) :
    ∃ kind options, block = .discriminator kind options discriminator path := by
  simp only [HasBlock, compileInto, bind_ok, pure_ok] at h
  obtain ⟨options, -, made, hmade, hblock⟩ := h
  obtain rfl := (List.cons.inj hblock).1
  rw [Block.ofMembers] at hmade
  split at hmade
  · cases hmade
    exact ⟨_, _, rfl⟩
  · cases hmade

end Schema

open Schema

namespace Frame

/-- The frame holds the blocks of the nodes: those of unions in front, the last one first, and all others
behind, in order. -/
structure Ordered (nodes : List (Schema × Path)) (frame : Frame) : Prop where
  lead : List.Forall₂ HasBlock (nodes.filter (·.1.isUnion)) frame.lead.reverse
  trail : List.Forall₂ HasBlock (nodes.filter (!·.1.isUnion)) frame.trail

theorem Ordered.append {first second : Frame} (h : Ordered nodes first) (h' : Ordered others second) :
    Ordered (nodes ++ others) (first.append second) where
  lead := by
    simp only [Frame.append, List.reverse_append, List.filter_append]
    exact List.rel_append h.lead h'.lead
  trail := by
    simp only [Frame.append, List.filter_append]
    exact List.rel_append h.trail h'.trail

theorem Ordered.of_union (h : HasBlock (schema, path) block) (hu : schema.isUnion = true) :
    Ordered [(schema, path)] ⟨[block], []⟩ where
  lead := by simpa [hu] using h
  trail := by simp [hu]

theorem Ordered.of_other (h : HasBlock (schema, path) block) (hu : schema.isUnion = false) :
    Ordered [(schema, path)] ⟨[], [block]⟩ where
  lead := by simp [hu]
  trail := by simpa [hu] using h

end Frame

/-- A schema adds the blocks of its frame's nodes. -/
theorem Compiled.ordered (h : Compiled schema path frame) :
    frame.Ordered (schema.frameNodes path) := by
  have hall := fun {node q blocks} (h : Compiled node q blocks) => compileInto_of_compiled h []
  induction h with
  | leaf hk =>
    obtain ⟨hnodes, hu⟩ := frameNodes_leaf hk
    rw [hnodes]
    exact .of_other (hall (.leaf hk)) hu
  | @object path parts h ih =>
    rw [frameNodes]
    clear h
    induction parts with
    | nil => exact ⟨.nil, .nil⟩
    | cons part parts ihp =>
      obtain ⟨hpart, hparts⟩ := List.forall_mem_cons.mp ih
      exact hpart.append (ihp hparts)
  | union h ht hb => exact .of_union (hall (.union h ht hb)) rfl
  | array h => exact .of_other (hall (.array h)) rfl
  | slot hi h =>
    obtain ⟨hnodes, hu⟩ := frameNodes_slot hi
    rw [hnodes]
    exact .of_other (hall (.slot hi h)) hu
  | refined ha _ ih => rwa [frameNodes, if_neg (by simp [ha])]

namespace Schema

/-- Compiling a schema into a frame puts the blocks of its unions in front, the last one first, and those
of all other nodes behind, in order, whatever the frame holds; or it fails, with one error for every
frame. The block of a union is the discriminator of its name at its path. -/
theorem compileInto_around (schema : Schema) (path : Path) :
    ((∃ unions others : Program,
      List.Forall₂ HasBlock ((schema.frameNodes path).filter (·.1.isUnion)) unions ∧
      List.Forall₂ HasBlock ((schema.frameNodes path).filter (!·.1.isUnion)) others ∧
      ∀ frame, schema.compileInto path frame = .ok (unions.reverse ++ frame ++ others)) ∨
    ∃ error, ∀ frame, schema.compileInto path frame = .error error) ∧
    ∀ discriminator members q block, HasBlock (union discriminator members, q) block →
      ∃ kind options, block = .discriminator kind options discriminator q := by
  refine ⟨?_, fun _ _ _ _ => discriminator_of_hasBlock⟩
  have hreports := reports_compileInto schema path
  cases hoffences : schema.offences path with
  | nil =>
    obtain ⟨program, hprogram⟩ := (hreports []).ok_iff.mpr hoffences
    obtain ⟨added, hadded, -⟩ := compileInto_ok schema hprogram
    have hordered := hadded.ordered
    refine .inl ⟨_, _, hordered.lead, hordered.trail, fun frame => ?_⟩
    rw [List.reverse_reverse]
    exact compileInto_of_compiled hadded frame
  | cons error rest =>
    refine .inr ⟨error, fun frame => (hreports frame).error_iff.mpr ?_⟩
    rw [hoffences]
    rfl

/-- Two unions in an object, the second below another field. -/
theorem compileInto_around_nested :
    let first := union "t" [object [("t", literal (.text "x"))]]
    let second := union "t" [object [("t", literal (.flag true))]]
    let schema := object [("a", string), ("u", first), ("o", object [("b", date), ("v", second)])]
    (∃ unions others : Program,
      List.Forall₂ HasBlock [(first, ["u"]), (second, ["o", "v"])] unions ∧
      List.Forall₂ HasBlock [(string, ["a"]), (date, ["o", "b"])] others ∧
      ∀ frame, schema.compileInto [] frame = .ok (unions.reverse ++ frame ++ others)) ∧
    HasBlock (second, ["o", "v"]) (.discriminator .boolean [(.bool true, [])] "t" ["o", "v"]) ∧
    ∃ kind options, Block.discriminator .boolean [(.bool true, [])] "t" ["o", "v"]
      = .discriminator kind options "t" ["o", "v"] := by
  intro first second schema
  obtain ⟨haround, hblock⟩ := compileInto_around schema []
  have hsecond : HasBlock (second, ["o", "v"])
      (.discriminator .boolean [(.bool true, [])] "t" ["o", "v"]) := rfl
  refine ⟨haround.resolve_right ?_, hsecond, hblock _ _ _ _ hsecond⟩
  rintro ⟨error, herror⟩
  cases herror []

/-- Of two unions the second, deeper one goes first. -/
example : (object [("a", string), ("u", union "t" [object [("t", literal (.text "x"))]]),
      ("o", object [("b", date), ("v", union "t" [object [("t", literal (.flag true))]])])]).compileInto
      [] [.primitive .null ["c"]] =
    .ok [.discriminator .boolean [(.bool true, [])] "t" ["o", "v"],
      .discriminator .string [(.string "x", [])] "t" ["u"], .primitive .null ["c"],
      .primitive .string ["a"], .primitive .date ["o", "b"]] := rfl

end Schema

end Positional
