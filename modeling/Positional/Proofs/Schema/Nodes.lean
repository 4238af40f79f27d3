import Positional.Proofs.Program.Every

/-!
# The nodes of a schema

A schema is compiled node by node, each at a path within its frame. What the parts of a schema share,
all its nodes have (`Schema.Hereditary.nodes`): they compile if the schema does, and they are well
named if it is. Conversely, a schema is well named if no node of it is at fault.
-/

namespace Positional

/-- A schema at a path has a node at a path. The element of an array is compiled at the root of a
frame of its own. A schema refined to byte buffers is a leaf. -/
inductive NodeAt : Schema → Path → Path → Schema → Prop
  | here : NodeAt node q q node
  | field (hf : (name, field) ∈ fields) (h : NodeAt field (p.child name) q node) :
      NodeAt (.object fields) p q node
  | member (hm : member ∈ members) (h : NodeAt member p q node) :
      NodeAt (.union discriminator members) p q node
  | element (h : NodeAt element [] q node) : NodeAt (.array element) p q node
  | slot {inner : Schema} (hi : schema.slotOf? = some inner) (h : NodeAt inner p q node) :
      NodeAt schema p q node
  | refined {inner : Schema} (ha : Schema.isBytesCheck accepts = false) (h : NodeAt inner p q node) :
      NodeAt (.refined accepts inner) p q node

theorem NodeAt.trans {inner : Schema} (h : NodeAt schema p q node) (hi : NodeAt node q r inner) :
    NodeAt schema p r inner := by
  induction h with
  | here => exact hi
  | field hf _ ih => exact .field hf (ih hi)
  | member hm _ ih => exact .member hm (ih hi)
  | element _ ih => exact .element (ih hi)
  | slot hs _ ih => exact .slot hs (ih hi)
  | refined ha _ ih => exact .refined ha (ih hi)

namespace Schema

/-- What the parts of a schema share, all its nodes have. -/
theorem Hereditary.nodes {P : Schema → Path → Prop} (hP : Hereditary P) (h : NodeAt schema p q node)
    (hs : P schema p) : P node q := by
  induction h with
  | here => exact hs
  | field hf _ ih => exact ih (hP.field hs _ hf)
  | member hm _ ih => exact ih (hP.member hs _ hm)
  | element _ ih => exact ih (hP.element hs)
  | slot hi _ ih => exact ih (hP.slot hi hs)
  | refined ha _ ih => exact ih (hP.refined ha hs)

theorem hereditary_nodeAt (schema : Schema) (path : Path) :
    Hereditary fun node q => NodeAt schema path q node where
  field h _ hf := h.trans (.field hf .here)
  member h _ hm := h.trans (.member hm .here)
  element h := h.trans (.element .here)
  slot hi h := h.trans (.slot hi .here)
  refined ha h := h.trans (.refined ha .here)

theorem hereditary_wellNamed : Hereditary fun node _ => node.wellNamed = true where
  field h := (wellNamed_object.mp h).2
  member h := (wellNamed_union.mp h).2
  element h := by rwa [wellNamed] at h
  slot hi h := by rwa [wellNamed_slot hi] at h
  refined ha h := by rwa [wellNamed_refined ha] at h

theorem hereditary_compiled : Hereditary fun node path => ∃ frame, Compiled node path frame where
  field := by
    rintro path fields ⟨frame, h⟩ field hf
    obtain ⟨parts, rfl, -, hparts⟩ := h.object_inv
    obtain ⟨part, hp, rfl⟩ := List.mem_map.mp hf
    exact ⟨_, hparts part hp⟩
  member := by
    rintro discriminator members path ⟨frame, h⟩ member hm
    obtain ⟨parts, _, rfl, -, hparts, -, -⟩ := h.union_inv
    obtain ⟨part, hp, rfl⟩ := List.mem_map.mp hm
    exact ⟨_, .object (hparts part hp)⟩
  element := fun ⟨_, h⟩ => h.array_inv.imp fun _ h => h.1
  slot hi := fun ⟨_, h⟩ => (h.slot_inv hi).imp fun _ h => h.1
  refined ha := fun ⟨frame, h⟩ => ⟨frame, h.refined_inv ha⟩

def UnionsNamed (schema : Schema) : Prop :=
  ∀ q discriminator members, NodeAt schema [] q (.union discriminator members) → discriminator ≠ ""

def FieldsDistinct (schema : Schema) : Prop :=
  ∀ q fields, NodeAt schema [] q (.object fields) → (fields.map (·.1)).Nodup

theorem unionsNamed_of_wellNamed {schema : Schema} (h : schema.wellNamed = true) :
    schema.UnionsNamed :=
  fun _ _ _ hn => (wellNamed_union.mp (hereditary_wellNamed.nodes hn h)).1

theorem fieldsDistinct_of_wellNamed {schema : Schema} (h : schema.wellNamed = true) :
    schema.FieldsDistinct :=
  fun _ _ hn => (wellNamed_object.mp (hereditary_wellNamed.nodes hn h)).1

theorem wellNamed_of_nodes {root : Schema} (hu : root.UnionsNamed) (hd : root.FieldsDistinct)
    (h : Compiled schema path frame) (hn : NodeAt root [] path schema) : schema.wellNamed = true := by
  have hP := hereditary_nodeAt root []
  induction h with
  | leaf hk => exact wellNamed_leaf hk
  | object _ ih =>
    refine wellNamed_object.mpr ⟨hd _ _ hn, fun field hf => ?_⟩
    obtain ⟨part, hp, rfl⟩ := List.mem_map.mp hf
    exact ih part hp (hP.field hn _ hf)
  | union _ _ _ ih =>
    refine wellNamed_union.mpr ⟨hu _ _ _ hn, fun member hm => ?_⟩
    have hmember := hP.member hn _ hm
    obtain ⟨part, hp, rfl⟩ := List.mem_map.mp hm
    refine wellNamed_object.mpr ⟨hd _ _ hmember, fun field hf => ?_⟩
    obtain ⟨entry, hentry, rfl⟩ := List.mem_map.mp hf
    exact ih part hp entry hentry (hP.field hmember _ hf)
  | array _ ih =>
    rw [wellNamed]
    exact ih (hP.element hn)
  | slot hi _ ih =>
    rw [wellNamed_slot hi]
    exact ih (hP.slot hi hn)
  | refined ha _ ih =>
    rw [wellNamed_refined ha]
    exact ih (hP.refined ha hn)

end Schema

end Positional
