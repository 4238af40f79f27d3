import Positional.Schema.Compilation

/-!
# The frames of schemas

`Compiled` says which blocks a schema adds to a frame: those that go in front, its unions, and those
that follow, everything else. Compiling is a function of the schema and the path alone
(`compileInto_ok`), so the blocks that the frame holds before do not matter.
-/

namespace Positional

/-- The blocks that a schema adds to a frame. -/
structure Frame where
  lead : Program
  trail : Program

namespace Frame

def blocks (frame : Frame) : Program := frame.lead ++ frame.trail

theorem blocks_lead (block : Block) : (mk [block] []).blocks = [block] := rfl

theorem blocks_trail (block : Block) : (mk [] [block]).blocks = [block] := rfl

def empty : Frame := ⟨[], []⟩

/-- One frame and then another. The unions of the second go before those of the first. -/
def append (first second : Frame) : Frame := ⟨second.lead ++ first.lead, first.trail ++ second.trail⟩

def join : List Frame → Frame
  | [] => empty
  | first :: rest => first.append (join rest)

theorem perm_join (frames : List Frame) : (join frames).blocks.Perm (frames.flatMap blocks) := by
  induction frames with
  | nil => exact List.Perm.nil
  | cons first rest ih =>
    have hlead : (first.append (join rest)).blocks.Perm (first.blocks ++ (join rest).blocks) := by
      simp only [append, blocks, List.append_assoc]
      exact List.perm_append_comm_assoc ..|>.trans (List.Perm.append_left _
        (List.perm_append_comm_assoc ..))
    exact hlead.trans (List.Perm.append_left _ ih)

theorem mem_join {parts : List α} {frame : α → Frame} :
    block ∈ (join (parts.map frame)).blocks ↔ ∃ part ∈ parts, block ∈ (frame part).blocks := by
  rw [(perm_join _).mem_iff, List.flatMap_map, List.mem_flatMap]

theorem mem_flatMap_join {parts : List α} {frame : α → Frame} {own : Block → List β} :
    b ∈ (join (parts.map frame)).blocks.flatMap own ↔
      ∃ part ∈ parts, b ∈ (frame part).blocks.flatMap own := by
  simp only [List.mem_flatMap, mem_join]
  constructor
  · rintro ⟨block, ⟨part, hp, hb⟩, hown⟩
    exact ⟨part, hp, block, hb, hown⟩
  · rintro ⟨part, hp, block, hb, hown⟩
    exact ⟨block, ⟨part, hp, hb⟩, hown⟩

/-- A test that tells the frames of the parts apart selects the frames of some parts. -/
theorem filter_join {parts : List α} {frame : α → Frame} {test : Block → Bool} {keep : α → Bool}
    (h : ∀ part ∈ parts, ∀ block ∈ (frame part).blocks, test block = keep part) :
    (join (parts.map frame)).blocks.filter test = (join ((parts.filter keep).map frame)).blocks := by
  suffices hboth :
      (join (parts.map frame)).lead.filter test = (join ((parts.filter keep).map frame)).lead ∧
      (join (parts.map frame)).trail.filter test = (join ((parts.filter keep).map frame)).trail by
    rw [blocks, List.filter_append, hboth.1, hboth.2, blocks]
  induction parts with
  | nil => exact ⟨rfl, rfl⟩
  | cons part parts ih =>
    obtain ⟨hpart, hparts⟩ := List.forall_mem_cons.mp h
    obtain ⟨hlead, htrail⟩ := ih hparts
    have hl : ∀ block ∈ (frame part).lead, test block = keep part := fun block hb =>
      hpart block (List.mem_append_left _ hb)
    have ht : ∀ block ∈ (frame part).trail, test block = keep part := fun block hb =>
      hpart block (List.mem_append_right _ hb)
    rw [List.map_cons, join, append, List.filter_append, List.filter_append, hlead, htrail,
      List.filter_congr hl, List.filter_congr ht, List.filter_cons]
    -- all of the part's blocks stay, or none
    cases keep part with
    | true =>
      rw [List.filter_eq_self.mpr fun _ _ => rfl, List.filter_eq_self.mpr fun _ _ => rfl]
      exact ⟨rfl, rfl⟩
    | false =>
      rw [List.filter_eq_nil_iff.mpr fun _ _ => Bool.false_ne_true,
        List.filter_eq_nil_iff.mpr fun _ _ => Bool.false_ne_true]
      exact ⟨List.append_nil _, List.nil_append _⟩

end Frame

namespace Schema

/-- The kind of a schema that is one scalar on the wire. -/
def leafKind? : Schema → Option Kind
  | string | enum _ => some .string
  | boolean => some .boolean
  | date => some .date
  | null => some .null
  | number checks => some (numberKind checks)
  | literal constant => constant.kind?
  | refined accepts _ => if isBytesCheck accepts then some .buffer else none
  | _ => none

theorem refined_leaf {inner : Schema} (h : (refined accepts inner).leafKind? = some kind) :
    isBytesCheck accepts = true ∧ kind = .buffer := by
  rw [leafKind?] at h
  split at h
  · exact ⟨‹_›, (Option.some.inj h).symm⟩
  · cases h

theorem leafKind_known {schema : Schema} (h : schema.leafKind? = some kind) :
    kind.check = .ok () := by
  cases schema with
  | number checks =>
    cases h
    simp only [numberKind]
    split
    · split <;> rfl
    · rfl
  | literal constant => cases constant <;> cases h <;> rfl
  | refined accepts inner =>
    obtain ⟨-, rfl⟩ := refined_leaf h
    rfl
  | _ => cases h <;> rfl

def slotOf? : Schema → Option Schema
  | optional inner | nullable inner => some inner
  | _ => none

end Schema

structure FieldFrame where
  name : String
  schema : Schema
  frame : Frame

def FieldFrame.field (part : FieldFrame) : String × Schema := (part.name, part.schema)

/-- A member of a union, an object, with its tags and what its fields add to a frame of its own. -/
structure MemberFrame where
  fields : List FieldFrame
  tags : List Tag

def MemberFrame.schema (part : MemberFrame) : Schema :=
  .object (part.fields.map FieldFrame.field)

def MemberFrame.frame (part : MemberFrame) : Frame := .join (part.fields.map (·.frame))

/-- The blocks of a member, less the leaf of its tag. -/
def MemberFrame.body (discriminator : String) (path : Path) (part : MemberFrame) : Program :=
  part.frame.blocks.filter (·.path != path.child discriminator)

def MemberFrame.options (discriminator : String) (path : Path) (part : MemberFrame) :
    List (Tag × Program) :=
  part.tags.map (·, part.body discriminator path)

/-- What a schema at a path adds to a frame. -/
inductive Compiled : Schema → Path → Frame → Prop
  | leaf (h : schema.leafKind? = some kind) : Compiled schema path ⟨[], [.primitive kind path]⟩
  | object {parts : List FieldFrame}
      (h : ∀ part ∈ parts, Compiled part.schema (path.child part.name) part.frame) :
      Compiled (.object (parts.map FieldFrame.field)) path (.join (parts.map (·.frame)))
  | union {parts : List MemberFrame}
      (h : ∀ part ∈ parts, ∀ field ∈ part.fields,
        Compiled field.schema (path.child field.name) field.frame)
      (ht : ∀ part ∈ parts, Schema.memberTags discriminator path part.schema = .ok part.tags)
      (hb : Block.ofMembers discriminator path
        (parts.flatMap (MemberFrame.options discriminator path)) = .ok block) :
      Compiled (.union discriminator (parts.map (·.schema))) path ⟨[block], []⟩
  | array (h : Compiled element [] frame) :
      Compiled (.array element) path ⟨[], [.ofElement frame.blocks path]⟩
  | slot {inner : Schema} (hi : schema.slotOf? = some inner) (h : Compiled inner path frame) :
      Compiled schema path ⟨[], [.ofSlot frame.blocks path]⟩
  | refined {inner : Schema} (ha : Schema.isBytesCheck accepts = false) (h : Compiled inner path frame) :
      Compiled (.refined accepts inner) path frame

theorem Compiled.object_inv (h : Compiled (.object fields) path frame) :
    ∃ parts : List FieldFrame, fields = parts.map FieldFrame.field ∧
      frame = .join (parts.map (·.frame)) ∧
      ∀ part ∈ parts, Compiled part.schema (path.child part.name) part.frame := by
  cases h with
  | leaf hk => cases hk
  | object h => exact ⟨_, rfl, rfl, h⟩
  | slot hi => cases hi

namespace Compiled

theorem array_inv (h : Compiled (.array element) path frame) :
    ∃ inner, Compiled element [] inner ∧ frame = ⟨[], [.ofElement inner.blocks path]⟩ := by
  cases h with
  | leaf hk => cases hk
  | array h => exact ⟨_, h, rfl⟩
  | slot hi => cases hi

theorem slot_inv {inner : Schema} (hi : schema.slotOf? = some inner) (h : Compiled schema path frame) :
    ∃ wrapped, Compiled inner path wrapped ∧ frame = ⟨[], [.ofSlot wrapped.blocks path]⟩ := by
  cases h with
  | leaf hk => cases schema <;> cases hi <;> cases hk
  | slot hi' h =>
    cases hi.symm.trans hi'
    exact ⟨_, h, rfl⟩
  | _ => cases hi

theorem refined_inv {inner : Schema} (ha : Schema.isBytesCheck accepts = false)
    (h : Compiled (.refined accepts inner) path frame) : Compiled inner path frame := by
  cases h with
  | leaf hk => exact absurd (Schema.refined_leaf hk).1 (by simp [ha])
  | slot hi => cases hi
  | refined _ h => exact h

theorem union_inv (h : Compiled (.union discriminator members) path frame) :
    ∃ (parts : List MemberFrame) (block : Block), members = parts.map (·.schema) ∧
      frame = ⟨[block], []⟩ ∧
      (∀ part ∈ parts, ∀ field ∈ part.fields,
        Compiled field.schema (path.child field.name) field.frame) ∧
      (∀ part ∈ parts, Schema.memberTags discriminator path part.schema = .ok part.tags) ∧
      Block.ofMembers discriminator path
        (parts.flatMap (MemberFrame.options discriminator path)) = .ok block := by
  cases h with
  | leaf hk => cases hk
  | union h ht hb => exact ⟨_, _, rfl, rfl, h, ht, hb⟩
  | slot hi => cases hi

end Compiled

namespace Schema

/-- A member with tags is an object whose field of the discriminator's name is a scalar, and none of
the tags is an integer. -/
theorem memberTags_ok (h : memberTags discriminator path member = .ok tags) :
    ∃ fields kind schema, member = .object fields ∧ fields.lookup discriminator = some schema ∧
      schema.leafKind? = some kind ∧ ∀ tag ∈ tags, ∀ n, tag ≠ .int n := by
  cases member with
  | object fields =>
    simp only [memberTags] at h
    split at h
    · rename_i constant hl
      cases constant <;> cases h <;> exact ⟨fields, _, _, rfl, hl, rfl, by simp⟩
    · rename_i first rest hl
      cases h
      exact ⟨fields, _, _, rfl, hl, rfl, by simp⟩
    · cases h
  | _ => cases h

theorem bind_ok {x : Except ε α} {f : α → Except ε β} :
    x >>= f = .ok result ↔ ∃ a, x = .ok a ∧ f a = .ok result := by
  cases x <;> simp [bind, Except.bind]

theorem pure_ok {a : α} : (pure a : Except ε α) = .ok b ↔ a = b := by
  simp [pure, Except.pure]

theorem leaf_ok (h : leafKind? schema = some kind) :
    compileInto schema path frame = .ok (frame ++ [.primitive kind path]) := by
  cases schema with
  | literal constant =>
    simp only [leafKind?] at h
    simp only [compileInto, h]
  | refined accepts inner =>
    obtain ⟨hb, rfl⟩ := refined_leaf h
    simp only [compileInto, hb, if_true]
  | _ => cases h <;> rfl

theorem leaf_frame (hk : leafKind? schema = some kind)
    (h : compileInto schema path before = .ok out) :
    ∃ frame, Compiled schema path frame ∧ out = frame.lead ++ before ++ frame.trail := by
  rw [leaf_ok hk] at h
  cases h
  exact ⟨_, .leaf hk, rfl⟩

mutual

/-- Compiling adds the frame of the schema around what is there. -/
theorem compileInto_ok : (schema : Schema) → schema.compileInto path before = .ok out →
    ∃ frame, Compiled schema path frame ∧ out = frame.lead ++ before ++ frame.trail
  | .object fields, h => by
    obtain ⟨parts, rfl, hparts, rfl⟩ := compileFields_ok fields h
    exact ⟨_, .object hparts, rfl⟩
  | .union discriminator members, h => by
    rw [compileInto, bind_ok] at h
    obtain ⟨options, ho, h⟩ := h
    obtain ⟨block, hb, h⟩ := bind_ok.mp h
    obtain rfl := pure_ok.mp h
    obtain ⟨parts, rfl, hparts, ht, rfl⟩ := compileMembers_ok members ho
    exact ⟨_, .union hparts ht hb, by simp⟩
  | .array element, h => by
    rw [compileInto, bind_ok] at h
    obtain ⟨inner, hi, h⟩ := h
    obtain rfl := pure_ok.mp h
    obtain ⟨frame, hf, rfl⟩ := compileInto_ok element hi
    exact ⟨_, .array hf, by simp [Frame.blocks]⟩
  | .optional inner, h => by
    rw [compileInto, bind_ok] at h
    obtain ⟨wrapped, hi, h⟩ := h
    obtain rfl := pure_ok.mp h
    obtain ⟨frame, hf, rfl⟩ := compileInto_ok inner hi
    exact ⟨_, .slot rfl hf, by simp [Frame.blocks]⟩
  | .nullable inner, h => by
    rw [compileInto, bind_ok] at h
    obtain ⟨wrapped, hi, h⟩ := h
    obtain rfl := pure_ok.mp h
    obtain ⟨frame, hf, rfl⟩ := compileInto_ok inner hi
    exact ⟨_, .slot rfl hf, by simp [Frame.blocks]⟩
  | .refined accepts inner, h => by
    cases ha : isBytesCheck accepts with
    | true =>
      have hl : leafKind? (.refined accepts inner) = some .buffer := by simp [leafKind?, ha]
      exact leaf_frame hl h
    | false =>
      simp only [compileInto, ha, Bool.false_eq_true, if_false] at h
      obtain ⟨frame, hf, rfl⟩ := compileInto_ok inner h
      exact ⟨frame, .refined ha hf, rfl⟩
  | .string, h => leaf_frame rfl h
  | .enum _, h => leaf_frame rfl h
  | .boolean, h => leaf_frame rfl h
  | .date, h => leaf_frame rfl h
  | .null, h => leaf_frame rfl h
  | .number _, h => leaf_frame rfl h
  | .literal constant, h => by
    cases hk : constant.kind? with
    | some kind => exact leaf_frame hk h
    | none =>
      rw [compileInto, hk] at h
      cases h

theorem compileFields_ok : (fields : List (String × Schema)) →
    compileFields fields path before = .ok out →
    ∃ parts : List FieldFrame, fields = parts.map FieldFrame.field ∧
      (∀ part ∈ parts, Compiled part.schema (path.child part.name) part.frame) ∧
      out = (Frame.join (parts.map (·.frame))).lead ++ before ++ (Frame.join (parts.map (·.frame))).trail
  | [], h => by
    cases h
    exact ⟨[], rfl, by simp, by simp [Frame.join, Frame.empty]⟩
  | (name, schema) :: rest, h => by
    rw [compileFields, bind_ok] at h
    obtain ⟨extended, hs, h⟩ := h
    obtain ⟨frame, hf, rfl⟩ := compileInto_ok schema hs
    obtain ⟨parts, rfl, hparts, rfl⟩ := compileFields_ok rest h
    refine ⟨⟨name, schema, frame⟩ :: parts, rfl, List.forall_mem_cons.mpr ⟨hf, hparts⟩, ?_⟩
    simp [Frame.join, Frame.append]

theorem compileMembers_ok : (members : List Schema) →
    compileMembers discriminator path members = .ok options →
    ∃ parts : List MemberFrame, members = parts.map (·.schema) ∧
      (∀ part ∈ parts, ∀ field ∈ part.fields,
        Compiled field.schema (path.child field.name) field.frame) ∧
      (∀ part ∈ parts, memberTags discriminator path part.schema = .ok part.tags) ∧
      options = parts.flatMap (MemberFrame.options discriminator path)
  | [], h => by
    cases h
    exact ⟨[], rfl, by simp, by simp, rfl⟩
  | member :: rest, h => by
    rw [compileMembers, bind_ok] at h
    obtain ⟨tags, ht, h⟩ := h
    obtain ⟨body, hb, h⟩ := bind_ok.mp h
    obtain ⟨others, ho, h⟩ := bind_ok.mp h
    obtain rfl := pure_ok.mp h
    obtain ⟨frame, hf, rfl⟩ := compileInto_ok member hb
    obtain ⟨parts, rfl, hparts, hts, rfl⟩ := compileMembers_ok rest ho
    obtain ⟨_, _, _, rfl, -, -, -⟩ := memberTags_ok ht
    obtain ⟨fields, rfl, rfl, hfields⟩ := hf.object_inv
    refine ⟨⟨fields, tags⟩ :: parts, rfl, List.forall_mem_cons.mpr ⟨hfields, hparts⟩,
      List.forall_mem_cons.mpr ⟨ht, hts⟩, ?_⟩
    simp [MemberFrame.options, MemberFrame.body, MemberFrame.frame, Frame.blocks]

end

-- ---------------------------------------------------------------------------
-- Every frame is compiled
-- ---------------------------------------------------------------------------

theorem compileFields_parts {parts : List FieldFrame}
    (h : ∀ part ∈ parts, ∀ before, part.schema.compileInto (path.child part.name) before
      = .ok (part.frame.lead ++ before ++ part.frame.trail)) (before : Program) :
    compileFields (parts.map FieldFrame.field) path before = .ok
      ((Frame.join (parts.map (·.frame))).lead ++ before ++ (Frame.join (parts.map (·.frame))).trail) := by
  induction parts generalizing before with
  | nil => simp [compileFields, Frame.join, Frame.empty]
  | cons part parts ih =>
    obtain ⟨hpart, hparts⟩ := List.forall_mem_cons.mp h
    rw [List.map_cons, FieldFrame.field, compileFields, bind_ok]
    refine ⟨_, hpart before, ?_⟩
    rw [ih hparts]
    simp [Frame.join, Frame.append]

theorem compileMembers_parts {parts : List MemberFrame}
    (ht : ∀ part ∈ parts, memberTags discriminator path part.schema = .ok part.tags)
    (h : ∀ part ∈ parts, part.schema.compileInto path [] = .ok part.frame.blocks) :
    compileMembers discriminator path (parts.map (·.schema))
      = .ok (parts.flatMap (MemberFrame.options discriminator path)) := by
  induction parts with
  | nil => rfl
  | cons part parts ih =>
    obtain ⟨htag, htags⟩ := List.forall_mem_cons.mp ht
    obtain ⟨hpart, hparts⟩ := List.forall_mem_cons.mp h
    rw [List.map_cons, compileMembers, bind_ok]
    refine ⟨_, htag, bind_ok.mpr ⟨_, hpart, bind_ok.mpr ⟨_, ih htags hparts, ?_⟩⟩⟩
    rfl

theorem compileInto_slot {schema inner : Schema} (hi : schema.slotOf? = some inner) :
    schema.compileInto path before = (do
      let wrapped ← inner.compileInto path []
      return before ++ [.ofSlot wrapped path]) := by
  cases schema <;> cases hi <;> rw [compileInto]

theorem compileInto_union {members : List Schema}
    (hm : compileMembers discriminator path members = .ok options)
    (hu : TagClass.unify? (options.map (·.1.tagClass)) = some tagClass) (before : Program) :
    (union discriminator members).compileInto path before = .ok (.discriminator tagClass.kind
      (options.map fun option => (option.1.coerce tagClass, option.2)) discriminator path :: before) := by
  rw [compileInto, hm]
  refine bind_ok.mpr ⟨_, rfl, bind_ok.mpr ⟨_, ?_, rfl⟩⟩
  rw [Block.ofMembers, hu]

theorem compileInto_of_compiled (h : Compiled schema path frame) (before : Program) :
    schema.compileInto path before = .ok (frame.lead ++ before ++ frame.trail) := by
  induction h generalizing before with
  | leaf hk => exact leaf_ok hk
  | object _ ih =>
    rw [compileInto]
    exact compileFields_parts ih before
  | union _ ht hb ih =>
    have hmembers := compileMembers_parts ht fun part hp => by
      rw [MemberFrame.schema, compileInto, compileFields_parts (ih part hp)]
      simp [Frame.blocks, MemberFrame.frame]
    rw [compileInto, hmembers]
    refine bind_ok.mpr ⟨_, rfl, bind_ok.mpr ⟨_, hb, ?_⟩⟩
    simp [pure, Except.pure]
  | array _ ih =>
    rw [compileInto, ih]
    simp [Frame.blocks, bind, Except.bind, pure, Except.pure]
  | slot hi _ ih =>
    rw [compileInto_slot hi, ih]
    simp [Frame.blocks, bind, Except.bind, pure, Except.pure]
  | refined ha _ ih =>
    rw [compileInto, if_neg (by simp [ha])]
    exact ih before

theorem compile_ok {schema : Schema} (h : schema.compile = .ok program) :
    ∃ frame, Compiled schema [] frame ∧ program = frame.blocks := by
  obtain ⟨frame, hf, rfl⟩ := compileInto_ok schema h
  exact ⟨frame, hf, by simp [Frame.blocks]⟩

end Schema

end Positional
