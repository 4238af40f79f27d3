import Mathlib.Data.List.Basic
import Positional.Proofs.Schema.Names
import Positional.Proofs.Schema.Supported

/-!
# The kind of a union

The tags of a union's members settle its kind (`KindOf`), whatever their order and however often they
occur: texts, flags, integers, or numbers of which some are no integers. A union with members compiles
to a block of that kind, with one option for each tag, or to none if its tags have no kind. A union
without members has no tags, so none of which it could be said that they are not numbers, and becomes
a block of floats.
-/

namespace Positional

/-- The kind by which tags tell members apart. -/
inductive KindOf (tags : List Tag) : Kind → Prop
  | string (hne : tags ≠ []) (h : ∀ tag ∈ tags, ∃ text, tag = .string text) : KindOf tags .string
  | boolean (hne : tags ≠ []) (h : ∀ tag ∈ tags, ∃ flag, tag = .bool flag) : KindOf tags .boolean
  | int (hne : tags ≠ []) (h : ∀ tag ∈ tags, ∃ x, tag = .float x ∧ x.isIntegral = true) :
      KindOf tags .int
  | float (hne : tags ≠ []) (h : ∀ tag ∈ tags, ∃ x, tag = .float x)
      (hs : ∃ x, .float x ∈ tags ∧ x.isIntegral = false) : KindOf tags .float

theorem not_kindOf_nil (kind : Kind) : ¬ KindOf [] kind := by
  intro h
  cases h <;> contradiction

/-- Neither order nor repetition matters. -/
theorem KindOf.congr (h : KindOf tags kind) (ht : ∀ tag, tag ∈ others ↔ tag ∈ tags) :
    KindOf others kind := by
  have hne : tags ≠ [] → others ≠ [] := by
    intro hne
    obtain ⟨tag, htag⟩ := List.exists_mem_of_ne_nil _ hne
    exact List.ne_nil_of_mem ((ht tag).mpr htag)
  cases h with
  | string hnil h => exact .string (hne hnil) fun tag htag => h tag ((ht tag).mp htag)
  | boolean hnil h => exact .boolean (hne hnil) fun tag htag => h tag ((ht tag).mp htag)
  | int hnil h => exact .int (hne hnil) fun tag htag => h tag ((ht tag).mp htag)
  | float hnil h hs =>
    obtain ⟨x, hx, hi⟩ := hs
    exact .float (hne hnil) (fun tag htag => h tag ((ht tag).mp htag)) ⟨x, (ht _).mpr hx, hi⟩

-- ---------------------------------------------------------------------------
-- Classes and kinds
-- ---------------------------------------------------------------------------

namespace Tag

/-- The tag in an option of a union of a kind: the tags of a union of integers, which are whole floats,
become the integers closest to them. -/
def under (kind : Kind) (tag : Tag) : Tag :=
  match kind, tag with
  | .int, .float x => .int (saturate (x.toInt?.getD 0))
  | _, tag => tag

theorem tagClass_string {tag : Tag} : tag.tagClass = .string ↔ ∃ text, tag = .string text := by
  cases tag with
  | float x => by_cases h : x.isIntegral = true <;> simp [tagClass, h]
  | _ => simp [tagClass]

theorem tagClass_boolean {tag : Tag} : tag.tagClass = .boolean ↔ ∃ flag, tag = .bool flag := by
  cases tag with
  | float x => by_cases h : x.isIntegral = true <;> simp [tagClass, h]
  | _ => simp [tagClass]

theorem tagClass_float {tag : Tag} :
    tag.tagClass = .float ↔ ∃ x, tag = .float x ∧ x.isIntegral = false := by
  cases tag with
  | float x => by_cases h : x.isIntegral = true <;> simp [tagClass, h]
  | _ => simp [tagClass]

section
variable {tag : Tag} (h : ∀ n, tag ≠ .int n)
include h

theorem tagClass_int : tag.tagClass = .int ↔ ∃ x, tag = .float x ∧ x.isIntegral = true := by
  cases tag with
  | float x => by_cases h : x.isIntegral = true <;> simp [tagClass, h]
  | int n => exact absurd rfl (h n)
  | _ => simp [tagClass]

theorem isNumeric_tagClass : tag.tagClass.isNumeric = true ↔ ∃ x, tag = .float x := by
  cases tag with
  | float x => by_cases h : x.isIntegral = true <;> simp [tagClass, TagClass.isNumeric, h]
  | int n => exact absurd rfl (h n)
  | _ => simp [tagClass, TagClass.isNumeric]

theorem coerce_eq_under (tagClass : TagClass) : tag.coerce tagClass = tag.under tagClass.kind := by
  cases tag with
  | int n => exact absurd rfl (h n)
  | _ => cases tagClass <;> rfl

end

end Tag

namespace TagClass

theorem mem_of_unify? {classes : List TagClass} (hne : classes ≠ [])
    (h : unify? classes = some tagClass) : tagClass ∈ classes := by
  cases classes with
  | nil => exact absurd rfl hne
  | cons first rest =>
    rw [unify?] at h
    split at h
    · cases h
      exact List.mem_cons_self ..
    · rename_i hsame
      split at h
      · rename_i hnumeric
        cases h
        -- numbers that are not all of one class: one of them is no integer
        refine Classical.byContradiction fun hfloat => ?_
        have hint : ∀ other ∈ first :: rest, other = .int := by
          intro other ho
          have hnumber : other.isNumeric = true := by
            rcases List.mem_cons.mp ho with rfl | ho <;> simp_all
          cases other with
          | int => rfl
          | float => exact absurd ho hfloat
          | _ => cases hnumber
        refine hsame (List.all_eq_true.mpr fun other ho => ?_)
        simp [hint other (List.mem_cons_of_mem _ ho), hint first (List.mem_cons_self ..)]
      · cases h

/-- The class in common is one of the classes, and the only one unless it is that of all numbers. -/
theorem unify?_eq_some_iff {classes : List TagClass} (hne : classes ≠ []) :
    unify? classes = some tagClass ↔ tagClass ∈ classes ∧
      ∀ other ∈ classes, other = tagClass ∨ other.isNumeric = true ∧ tagClass = .float := by
  constructor
  · intro h
    exact ⟨mem_of_unify? hne h, fun other ho => unify?_eq_some h ho⟩
  · rintro ⟨htag, hall⟩
    cases hu : unify? classes with
    | some found =>
      rcases hall found (mem_of_unify? hne hu) with rfl | ⟨-, rfl⟩
      · rfl
      · rcases unify?_eq_some hu htag with rfl | ⟨-, rfl⟩ <;> rfl
    | none =>
      have hcommon : ∀ other ∈ classes, other.common = tagClass.common := by
        intro other ho
        refine common_eq.mpr ((hall other ho).imp_right ?_)
        rintro ⟨hnumber, rfl⟩
        exact ⟨hnumber, rfl⟩
      have hsome := (unify?_isSome classes).mpr fun first hf second hs =>
        (hcommon first hf).trans (hcommon second hs).symm
      simp [hu] at hsome

theorem unify?_iff_kindOf {tags : List Tag} (hne : tags ≠ []) (hint : ∀ tag ∈ tags, ∀ n, tag ≠ .int n) :
    unify? (tags.map Tag.tagClass) = some tagClass ↔ KindOf tags tagClass.kind := by
  have hnil : tags.map Tag.tagClass ≠ [] := by simpa using hne
  have hone : tagClass ≠ .float → (unify? (tags.map Tag.tagClass) = some tagClass ↔
      ∀ tag ∈ tags, tag.tagClass = tagClass) := by
    intro hfloat
    simp only [unify?_eq_some_iff hnil, hfloat, and_false, or_false, List.forall_mem_map,
      and_iff_right_iff_imp]
    intro hall
    obtain ⟨tag, htag⟩ := List.exists_mem_of_ne_nil _ hne
    exact List.mem_map.mpr ⟨tag, htag, hall tag htag⟩
  cases tagClass with
  | string =>
    rw [hone (by decide)]
    constructor
    · exact fun h => .string hne fun tag htag => Tag.tagClass_string.mp (h tag htag)
    · intro hkind
      cases hkind with
      | string _ h => exact fun tag htag => Tag.tagClass_string.mpr (h tag htag)
  | boolean =>
    rw [hone (by decide)]
    constructor
    · exact fun h => .boolean hne fun tag htag => Tag.tagClass_boolean.mp (h tag htag)
    · intro hkind
      cases hkind with
      | boolean _ h => exact fun tag htag => Tag.tagClass_boolean.mpr (h tag htag)
  | int =>
    rw [hone (by decide)]
    constructor
    · exact fun h => .int hne fun tag htag => (Tag.tagClass_int (hint tag htag)).mp (h tag htag)
    · intro hkind
      cases hkind with
      | int _ h => exact fun tag htag => (Tag.tagClass_int (hint tag htag)).mpr (h tag htag)
  | float =>
    have hnumeric (other : TagClass) : (other = .float ∨ other.isNumeric = true ∧ True) ↔
        other.isNumeric = true := by cases other <;> simp [isNumeric]
    simp only [unify?_eq_some_iff hnil, hnumeric, List.forall_mem_map]
    rw [List.mem_map]
    constructor
    · rintro ⟨⟨tag, htag, hfloat⟩, h⟩
      obtain ⟨x, rfl, hx⟩ := Tag.tagClass_float.mp hfloat
      exact .float hne (fun tag htag => (Tag.isNumeric_tagClass (hint tag htag)).mp (h tag htag))
        ⟨x, htag, hx⟩
    · intro hkind
      cases hkind with
      | float _ h hs =>
        obtain ⟨x, hx, hs⟩ := hs
        exact ⟨⟨_, hx, Tag.tagClass_float.mpr ⟨x, rfl, hs⟩⟩,
          fun tag htag => (Tag.isNumeric_tagClass (hint tag htag)).mpr (h tag htag)⟩

theorem exists_of_kindOf {kind : Kind} (h : KindOf tags kind) : ∃ tagClass : TagClass, tagClass.kind = kind := by
  cases h with
  | string => exact ⟨.string, rfl⟩
  | boolean => exact ⟨.boolean, rfl⟩
  | int => exact ⟨.int, rfl⟩
  | float => exact ⟨.float, rfl⟩

end TagClass

-- ---------------------------------------------------------------------------
-- Unions
-- ---------------------------------------------------------------------------

namespace Schema

/-- A member's tags are the literal or the enumerated texts in its first field of the name. -/
inductive TaggedBy (discriminator : String) : Schema → List Tag → Prop
  | literal (hl : fields.lookup discriminator = some (.literal constant))
      (ht : constant.tag? = some tag) : TaggedBy discriminator (.object fields) [tag]
  | enum (hl : fields.lookup discriminator = some (.enum values)) (hne : values ≠ []) :
      TaggedBy discriminator (.object fields) (values.map .string)

theorem memberTags_iff {member : Schema} : memberTags discriminator path member = .ok tags ↔
    TaggedBy discriminator member tags := by
  constructor
  · intro h
    cases member with
    | object fields =>
      simp only [memberTags] at h
      split at h
      · rename_i constant hl
        split at h
        · cases h
          exact .literal hl ‹_›
        · cases h
      · cases h
        exact .enum ‹_› (List.cons_ne_nil _ _)
      · cases h
    | _ => cases h
  · rintro (⟨hl, ht⟩ | ⟨hl, hne⟩)
    · simp [memberTags, hl, ht]
    · obtain ⟨first, rest, rfl⟩ := List.exists_cons_of_ne_nil hne
      simp [memberTags, hl]

theorem TaggedBy.ne_nil (h : TaggedBy discriminator member tags) : tags ≠ [] := by
  cases h with
  | literal => simp
  | enum _ hne => simpa using hne

/-- The tags of the members, in order and each in this form, with the blocks of its member less those
at the tag's own path. -/
def taggedBlocks (discriminator : String) (path : Path) (members : List Schema)
    (tags : Schema → List Tag) (body : Schema → Program) (form : Tag → Tag) : List (Tag × Program) :=
  members.flatMap fun member =>
    (tags member).map (form ·, (body member).filter (·.path != path.child discriminator))

theorem tagClass_taggedBlocks (tags : Schema → List Tag) (body : Schema → Program) :
    (taggedBlocks discriminator path members tags body id).map (·.1.tagClass)
      = (members.flatMap tags).map Tag.tagClass := by
  simp [taggedBlocks, List.map_flatMap, Function.comp_def]

section
variable {discriminator : String} {path : Path} {members : List Schema}
  {tags : Schema → List Tag} {body : Schema → Program}
  (hpass : ∀ member ∈ members, memberTags discriminator path member = .ok (tags member) ∧
    member.compileInto path [] = .ok (body member))

include hpass

/-- Each member is compiled by itself, and each of its tags has an option. -/
theorem compileMembers_eq : compileMembers discriminator path members
    = .ok (taggedBlocks discriminator path members tags body id) := by
  induction members with
  | nil => rfl
  | cons member rest ih =>
    obtain ⟨⟨htags, hbody⟩, hrest⟩ := List.forall_mem_cons.mp hpass
    simp only [compileMembers, htags, hbody, ih hrest]
    rfl

theorem not_int_of_mem (h : tag ∈ members.flatMap tags) (n : Int64) : tag ≠ .int n := by
  obtain ⟨member, hm, htag⟩ := List.mem_flatMap.mp h
  obtain ⟨_, _, _, _, _, _, hint⟩ := memberTags_ok (hpass member hm).1
  exact hint tag htag n

theorem tags_ne_nil (hne : members ≠ []) : members.flatMap tags ≠ [] := by
  obtain ⟨member, hm⟩ := List.exists_mem_of_ne_nil _ hne
  obtain ⟨tag, htag⟩ := List.exists_mem_of_ne_nil _ (memberTags_iff.mp (hpass member hm).1).ne_nil
  exact List.ne_nil_of_mem (List.mem_flatMap.mpr ⟨member, hm, htag⟩)

theorem coerce_taggedBlocks (tagClass : TagClass) :
    (taggedBlocks discriminator path members tags body id).map
        (fun option => (option.1.coerce tagClass, option.2))
      = taggedBlocks discriminator path members tags body (·.under tagClass.kind) := by
  rw [taggedBlocks, List.map_flatMap]
  refine List.flatMap_congr fun member hm => ?_
  rw [List.map_map]
  refine List.map_congr_left fun tag htag => ?_
  have hint := not_int_of_mem hpass (List.mem_flatMap.mpr ⟨member, hm, htag⟩)
  simp [Tag.coerce_eq_under hint]

theorem compileInto_tags (frame : Program) :
    (union discriminator members).compileInto path frame =
      match TagClass.unify? ((members.flatMap tags).map Tag.tagClass) with
      | some tagClass => .ok (.discriminator tagClass.kind
          (taggedBlocks discriminator path members tags body (·.under tagClass.kind))
          discriminator path :: frame)
      | none => .error (.undecidableDiscriminator path) := by
  simp only [compileInto, compileMembers_eq hpass, bind, Except.bind, Block.ofMembers,
    tagClass_taggedBlocks, coerce_taggedBlocks hpass]
  cases TagClass.unify? ((members.flatMap tags).map Tag.tagClass) <;> rfl

theorem unify?_tags {kind : Kind} :
    (∃ tagClass, TagClass.unify? ((members.flatMap tags).map Tag.tagClass) = some tagClass ∧
      tagClass.kind = kind) ↔
    KindOf (members.flatMap tags) kind ∨ members = [] ∧ kind = .float := by
  by_cases hne : members = []
  · subst hne
    simp [TagClass.unify?, TagClass.kind, not_kindOf_nil, eq_comm]
  · have htags := tags_ne_nil hpass hne
    simp only [TagClass.unify?_iff_kindOf htags fun _ => not_int_of_mem hpass, hne, false_and, or_false]
    constructor
    · rintro ⟨tagClass, h, rfl⟩
      exact h
    · intro h
      obtain ⟨tagClass, rfl⟩ := TagClass.exists_of_kindOf h
      exact ⟨tagClass, h, rfl⟩

theorem compileInto_block_iff (frame : Program) {kind : Kind} {options : List (Tag × Program)} :
    (union discriminator members).compileInto path frame
        = .ok (.discriminator kind options discriminator path :: frame) ↔
      (KindOf (members.flatMap tags) kind ∨ members = [] ∧ kind = .float) ∧
        options = taggedBlocks discriminator path members tags body (·.under kind) := by
  rw [compileInto_tags hpass, ← unify?_tags hpass]
  cases TagClass.unify? ((members.flatMap tags).map Tag.tagClass) with
  | none => simp
  | some tagClass =>
    constructor
    · intro h
      cases h
      exact ⟨⟨tagClass, rfl, rfl⟩, rfl⟩
    · rintro ⟨⟨_, hclass, rfl⟩, rfl⟩
      cases hclass
      rfl

theorem compileInto_undecidable_iff (frame : Program) :
    (union discriminator members).compileInto path frame = .error (.undecidableDiscriminator path) ↔
      members ≠ [] ∧ ∀ kind, ¬ KindOf (members.flatMap tags) kind := by
  have hnone : TagClass.unify? ((members.flatMap tags).map Tag.tagClass) = none ↔
      ∀ kind, ¬ (KindOf (members.flatMap tags) kind ∨ members = [] ∧ kind = .float) := by
    simp only [← unify?_tags hpass]
    cases TagClass.unify? ((members.flatMap tags).map Tag.tagClass) <;> simp
  have herror : (union discriminator members).compileInto path frame
      = .error (.undecidableDiscriminator path) ↔
        TagClass.unify? ((members.flatMap tags).map Tag.tagClass) = none := by
    rw [compileInto_tags hpass]
    cases TagClass.unify? ((members.flatMap tags).map Tag.tagClass) <;> simp
  rw [herror, hnone]
  constructor
  · intro h
    exact ⟨fun hnil => h .float (.inr ⟨hnil, rfl⟩), fun kind hkind => h kind (.inl hkind)⟩
  · rintro ⟨hne, h⟩ kind (hkind | ⟨hnil, -⟩)
    · exact h kind hkind
    · exact hne hnil

/-- A member without the leaf of its tag is the object of its other fields. -/
theorem compile_others (hm : object fields ∈ members) (hn : (fields.map (·.1)).Nodup) :
    (object (fields.filter (·.1 != discriminator))).compileInto path [] =
      .ok ((body (object fields)).filter (·.path != path.child discriminator)) := by
  obtain ⟨htags, hbody⟩ := hpass _ hm
  obtain ⟨frame, hframe, hblocks⟩ := compileInto_ok _ hbody
  obtain ⟨parts, rfl, rfl, hparts⟩ := hframe.object_inv
  have hnames : (parts.map (·.name)).Nodup := by rwa [List.map_map] at hn
  have hwhole : body (object (parts.map FieldFrame.field))
      = (Frame.join (parts.map (·.frame))).blocks := by simp [hblocks, Frame.blocks]
  let part : MemberFrame := ⟨parts, tags (object (parts.map FieldFrame.field))⟩
  have htags' : memberTags discriminator path part.schema = .ok part.tags := htags
  rw [hwhole]
  exact MemberFrame.compile_body hparts hnames htags'

/-- A union whose members are tagged objects that compile is a block of the kind of its tags, or of
floats if it has no members, with the options in order; it is undecidable if its tags have no kind.
Which of these it is depends on the set of members alone. -/
theorem union_kind_iff (frame : Program) :
    (∀ kind options, (union discriminator members).compileInto path frame
        = .ok (.discriminator kind options discriminator path :: frame) ↔
      (KindOf (members.flatMap tags) kind ∨ members = [] ∧ kind = .float) ∧
        options = taggedBlocks discriminator path members tags body (·.under kind)) ∧
    ((union discriminator members).compileInto path frame
        = .error (.undecidableDiscriminator path) ↔
      members ≠ [] ∧ ∀ kind, ¬ KindOf (members.flatMap tags) kind) ∧
    (∀ others : List Schema, (∀ member, member ∈ others ↔ member ∈ members) →
      (∀ kind, (∃ options, (union discriminator others).compileInto path frame
          = .ok (.discriminator kind options discriminator path :: frame)) ↔
        ∃ options, (union discriminator members).compileInto path frame
          = .ok (.discriminator kind options discriminator path :: frame)) ∧
      ((union discriminator others).compileInto path frame = .error (.undecidableDiscriminator path) ↔
        (union discriminator members).compileInto path frame
          = .error (.undecidableDiscriminator path))) ∧
    ∀ member ∈ members, TaggedBy discriminator member (tags member) ∧
      ∀ fields, member = object fields → (fields.map (·.1)).Nodup →
        (object (fields.filter (·.1 != discriminator))).compileInto path [] =
          .ok ((body member).filter (·.path != path.child discriminator)) := by
  refine ⟨fun _ _ => compileInto_block_iff hpass frame, compileInto_undecidable_iff hpass frame, ?_, ?_⟩
  · intro others hothers
    have hpass' := fun member hm => hpass member ((hothers member).mp hm)
    have hnil : others = [] ↔ members = [] := by
      simp only [List.eq_nil_iff_forall_not_mem, hothers]
    have hkind (kind : Kind) : KindOf (others.flatMap tags) kind ↔ KindOf (members.flatMap tags) kind := by
      have htags (tag : Tag) : tag ∈ others.flatMap tags ↔ tag ∈ members.flatMap tags := by
        simp only [List.mem_flatMap, hothers]
      exact ⟨fun h => h.congr fun tag => (htags tag).symm, fun h => h.congr htags⟩
    simp only [compileInto_block_iff hpass, compileInto_block_iff hpass',
      compileInto_undecidable_iff hpass, compileInto_undecidable_iff hpass', hnil, hkind, ne_eq,
      exists_and_left, exists_eq, and_true, implies_true, and_self]
  · intro member hm
    refine ⟨memberTags_iff.mp (hpass member hm).1, ?_⟩
    rintro fields rfl hn
    exact compile_others hpass hm hn

end

/-- Of two numbers one is no integer, so the tags are floats, the whole one too. -/
theorem union_kind_iff_numbers :
    let members := [object [("t", literal (.number ⟨0x3ff0000000000000⟩)), ("a", string)],
      object [("t", literal (.number ⟨0x3ff8000000000000⟩))]]
    ∃ (tags : Schema → List Tag) (body : Schema → Program),
      (∀ member ∈ members, memberTags "t" ["u"] member = .ok (tags member) ∧
        member.compileInto ["u"] [] = .ok (body member)) ∧
      KindOf (members.flatMap tags) .float ∧
      (union "t" members).compileInto ["u"] [] = .ok [.discriminator .float
        [(.float ⟨0x3ff0000000000000⟩, [.primitive .string ["u", "a"]]),
          (.float ⟨0x3ff8000000000000⟩, [])] "t" ["u"]] := by
  intro members
  let tags (member : Schema) := (memberTags "t" ["u"] member).toOption.getD []
  let body (member : Schema) := (member.compileInto ["u"] []).toOption.getD []
  have hpass : ∀ member ∈ members, memberTags "t" ["u"] member = .ok (tags member) ∧
      member.compileInto ["u"] [] = .ok (body member) :=
    List.forall_mem_cons.mpr ⟨⟨rfl, rfl⟩, List.forall_mem_singleton.mpr ⟨rfl, rfl⟩⟩
  have htags : members.flatMap tags = [.float ⟨0x3ff0000000000000⟩, .float ⟨0x3ff8000000000000⟩] := rfl
  have hkind : KindOf (members.flatMap tags) .float := by
    rw [htags]
    exact .float (by simp) (by simp) ⟨⟨0x3ff8000000000000⟩, by simp, by decide +kernel⟩
  exact ⟨tags, body, hpass, hkind, ((union_kind_iff hpass []).1 .float _).mpr ⟨.inl hkind, rfl⟩⟩

/-- No tags, so no kind: still the union becomes a block of floats. -/
theorem kindless_union_compiled : (∀ kind, ¬ KindOf [] kind) ∧
    (object [("u", union "t" [])]).compile = .ok [.discriminator .float [] "t" ["u"]] ∧
    (object [("u", union "t" [])]).compile ≠ .error (.undecidableDiscriminator ["u"]) := by
  refine ⟨not_kindOf_nil, rfl, ?_⟩
  intro h
  cases h

end Schema

end Positional
