import Mathlib.Data.List.Nodup
import Positional.Proofs.Document.Reflects
import Positional.Proofs.Schema.Traces

/-!
# Field by field

What a document reflects of an object, or of a union's member, it reflects field by field: the
assignments of each field are below its name, so those of the others do not show there.
-/

namespace Positional

open Value (Reflects)

/-- Below the name of a field a document reflects the field's own assignments, if those of the other
fields are below other names. -/
theorem Value.Reflects.at_name {parts : List FieldFrame} {own : FieldFrame → Writes}
    (h : Reflects y path writes)
    (hbelow : ∀ part ∈ parts, ∀ write ∈ own part, path.child part.name <+: write.1)
    (hnames : (parts.map (·.name)).Nodup) (hp : part ∈ parts)
    (hin : ∀ write ∈ own part, write ∈ writes)
    (hout : ∀ write ∈ writes, Path.Apart write.1 (path.child part.name) ∨
      ∃ other ∈ parts, write ∈ own other) :
    Reflects y (path.child part.name) (own part) := by
  refine h.narrow (Path.below_child path part.name) hin fun write hw => ?_
  rcases hout write hw with happ | ⟨other, ho, hw⟩
  · exact .inr happ
  · by_cases hname : other.name = part.name
    · have hsame : other = part := List.inj_on_of_nodup_map hnames ho hp hname
      exact .inl (hsame ▸ hw)
    · exact .inr ((Path.apart_child path hname).below (hbelow other ho write hw))

namespace Compiled

section
variable {parts : List FieldFrame} {path : Path} {x y : Value} {writes : Writes}
  (hn : ∀ part ∈ parts, part.schema.wellNamed = true)
  (hparts : ∀ part ∈ parts, Compiled part.schema (path.child part.name) part.frame)
  (h : Reflects y path writes)

include hn hparts h

theorem reflects_part (hnames : (parts.map (·.name)).Nodup) (hp : part ∈ parts)
    (hin : ∀ write ∈ Block.echoAll part.frame.blocks x, write ∈ writes)
    (hout : ∀ write ∈ writes, Path.Apart write.1 (path.child part.name) ∨
      ∃ other ∈ parts, write ∈ Block.echoAll other.frame.blocks x) :
    Reflects y (path.child part.name) (Block.echoAll part.frame.blocks x) :=
  h.at_name (fun part hp => (hparts part hp).below_echo (hn part hp)) hnames hp hin hout

theorem absent_of_undeclared (hname : name ∉ parts.map (·.name))
    (hout : ∀ write ∈ writes, Path.Apart write.1 (path.child name) ∨
      ∃ other ∈ parts, write ∈ Block.echoAll other.frame.blocks x) :
    y.lookup (path.child name) = none := by
  refine h.only _ (Path.below_child path name) (Path.child_ne_nil path name) fun write hw => ?_
  rcases hout write hw with happ | ⟨other, ho, hw⟩
  · exact happ
  · have hne : other.name ≠ name := fun heq => hname (List.mem_map.mpr ⟨other, ho, heq⟩)
    have hbelow := (hparts other ho).below_echo (hn other ho) write hw
    exact (Path.apart_child path hne).below hbelow

end

/-- An object's own assignments are those of its fields. -/
theorem reflects_field {parts : List FieldFrame}
    (hn : (Schema.object (parts.map FieldFrame.field)).wellNamed = true)
    (hparts : ∀ part ∈ parts, Compiled part.schema (path.child part.name) part.frame)
    (hp : part ∈ parts)
    (h : Reflects y path (Block.echoAll (Frame.join (parts.map (·.frame))).blocks x)) :
    Reflects y (path.child part.name) (Block.echoAll part.frame.blocks x) := by
  obtain ⟨hnames, hfields⟩ := Schema.wellNamed_fields.mp hn
  exact reflects_part hfields hparts h hnames hp
    (fun write hw => Block.mem_echoAll_join.mpr ⟨part, hp, hw⟩)
    fun write hw => .inr (Block.mem_echoAll_join.mp hw)

end Compiled

end Positional
