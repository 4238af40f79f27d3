import Positional.Proofs.Codec.Canonical
import Positional.Proofs.Json.Members
import Positional.Proofs.Schema.Encodable
import Positional.Schema.Description

/-!
# Unions from descriptions

The literal that names a member of a union goes one way, through a float to a tag of the class that
the union's tags share; the same literal in data goes another, to a value with an integer's own
variant. `TagClass.keeps` says where the two meet: then data with the literal is written as the tag
followed by what the other fields of the member write.
-/

namespace Positional

/-- Of the integers that are rounded before they are cut off, those remain that need no rounding, and
the greatest, which is rounded up and cut off again. -/
theorem saturate_rounded {n : Int64} (h : (Binary64.ofInt n.toInt).toInt? = some k) :
    saturate k = n ↔ k = n.toInt ∨ n = Int64.maxValue := by
  have min : Int64.minValue.toInt = -9223372036854775808 := rfl
  have max : Int64.maxValue.toInt = 9223372036854775807 := rfl
  have hlow := n.le_toInt
  have hhigh := n.toInt_lt
  have hmin : n = Int64.minValue → k = -9223372036854775808 := by
    rintro rfl
    have hr : (Binary64.ofInt Int64.minValue.toInt).toInt? = some (-9223372036854775808) := by
      decide +kernel
    exact Option.some.inj (h.symm.trans hr)
  have hmax : n = Int64.maxValue → k = 9223372036854775808 := by
    rintro rfl
    have hr : (Binary64.ofInt Int64.maxValue.toInt).toInt? = some 9223372036854775808 := by
      decide +kernel
    exact Option.some.inj (h.symm.trans hr)
  rcases saturate_cases k with ⟨hbelow, hs⟩ | ⟨habove, hs⟩ | hs
  · rw [hs]
    constructor
    · intro hn
      have := hmin hn.symm
      omega
    · rintro (hn | hn)
      · omega
      · have := hmax hn
        omega
  · rw [hs, eq_comm]
    exact ⟨.inr, fun hn => hn.resolve_left (by omega)⟩
  · have hbound := (saturate k).toInt_lt
    rw [← Int64.toInt_inj, hs]
    refine ⟨.inl, fun hn => hn.resolve_right fun hn => ?_⟩
    have := hmax hn
    omega

namespace TagClass

/-- Whether a literal in the data is still the tag that it became in a union of this class. As an
integer it must be a float, or the greatest integer, and in range; as a float it must be a number. -/
def keeps : TagClass → Value → Bool
  | int, .int n => (Binary64.ofInt n.toInt).toInt? == some n.toInt || n == Int64.maxValue
  | int, .uint _ => false
  | int, .float x => (x.toInt?.bind int64?).isSome
  | float, .float x => !x.isNaN
  | _, _ => true

theorem keeps_float (h : value.toBinary64? = some x) :
    float.keeps value = true ↔ (Tag.float x).matchesValue value = true := by
  simp only [Tag.matchesValue, h]
  have hinteger : ∀ n : Int, n.natAbs < UInt64.size →
      (Binary64.ofInt n).equals (Binary64.ofInt n) = true := by
    intro n hn
    obtain ⟨k, hk⟩ := Option.isSome_iff_exists.mp (Binary64.isIntegral_ofInt hn)
    exact Binary64.equals_self (Binary64.isNaN_of_toInt? hk)
  have hsize : UInt64.size = 18446744073709551616 := rfl
  cases value with
  | float y =>
    cases h
    simp [keeps, Binary64.equals]
  | int n =>
    cases h
    have hlow := n.le_toInt
    have hhigh := n.toInt_lt
    simp [keeps, hinteger n.toInt (by omega)]
  | uint n =>
    cases h
    have hlt := n.toNat_lt
    simp [keeps, hinteger n.toNat (by omega)]
  | _ => cases h

theorem keeps_int (hx : x.toInt? = some k) (hv : value = .float x ∨
    (∃ n, value = .int n ∧ x = .ofInt n.toInt) ∨ ∃ n, value = .uint n ∧ int64? n.toNat = none) :
    int.keeps value = true ↔ (∃ written, Kind.int.encode? value = some written) ∧
      (Tag.int (saturate k)).matchesValue value = true := by
  rcases hv with rfl | ⟨n, rfl, rfl⟩ | ⟨n, rfl, hn⟩
  · have hencode : Kind.int.encode? (.float x) = (int64? k).map Wire.svarint := by
      simp [Kind.encode?, Value.toInt64?, Value.integer?, hx]
    rw [hencode, keeps, hx, Option.bind_some]
    cases hk : int64? k with
    | none => simp
    | some n =>
      have hn := int64?_eq_some.mp hk
      have hback : (Binary64.ofInt n.toInt).toInt? = some k := hn ▸ Binary64.toInt?_ofInt (hn ▸ hx)
      simp [Tag.matchesValue, saturate_of_int64? hk, Binary64.isIntegral, hx,
        Binary64.equals_of_toInt? hback hx]
  · have hencode : Kind.int.encode? (.int n) = some (Wire.svarint n) := by simp [Kind.encode?]
    rw [hencode, keeps, hx, Tag.matchesValue, Bool.or_eq_true, beq_iff_eq, beq_iff_eq, beq_iff_eq,
      saturate_rounded hx, Option.some_inj]
    exact ⟨fun h => ⟨⟨_, rfl⟩, h⟩, And.right⟩
  · have hencode : Kind.int.encode? (.uint n) = none := by
      simp [Kind.encode?, Value.toInt64?, Value.integer?, hn]
    simp [keeps, hencode]

end TagClass

namespace Description

def tagOf? (literal : Json) : Option Tag :=
  match constantOf literal with
  | .ok constant => constant.tag?
  | .error _ => none

theorem tagOf?_float {literal : Json} (h : tagOf? literal = some (.float x)) :
    literal.toValue = .float x ∨ (∃ n, literal.toValue = .int n ∧ x = .ofInt n.toInt) ∨
      ∃ n, literal.toValue = .uint n ∧ int64? n.toNat = none ∧ x = .ofInt n.toNat := by
  cases literal with
  | float y =>
    cases h
    exact .inl rfl
  | integer n =>
    cases h
    rw [Json.toValue]
    cases hn : int64? n with
    | some k => exact .inr (.inl ⟨k, rfl, by rw [int64?_eq_some.mp hn]⟩)
    | none =>
      cases hu : uint64? n with
      | some k =>
        have hk := uint64?_eq_some.mp hu
        exact .inr (.inr ⟨k, rfl, hk ▸ hn, by rw [hk]⟩)
      | none => exact .inl rfl
  | _ => cases h

theorem keeps_number {literal : Json} (ht : tagOf? literal = some (.float x))
    (hc : (Tag.float x).tagClass = tagClass ∨ tagClass = .float) :
    tagClass.keeps literal.toValue = true ↔
      (∃ written, tagClass.kind.encode? literal.toValue = some written) ∧
        ((Tag.float x).coerce tagClass).matchesValue literal.toValue = true := by
  have hv := tagOf?_float ht
  by_cases hfloat : tagClass = .float
  · subst hfloat
    have hx : literal.toValue.toBinary64? = some x := by
      rcases hv with hv | ⟨n, hv, rfl⟩ | ⟨n, hv, -, rfl⟩ <;> rw [hv] <;> rfl
    have hencode : Kind.float.encode? literal.toValue = some (Wire.double x) := by
      rw [Kind.encode?, hx, Option.map_some]
    rw [TagClass.keeps_float hx]
    exact ⟨fun h => ⟨⟨_, hencode⟩, h⟩, And.right⟩
  · -- a class of tags that are no floats takes in only the floats that are integers
    have hclass := hc.resolve_right hfloat
    rw [Tag.tagClass] at hclass
    split at hclass
    · rename_i hwhole
      obtain ⟨k, hk⟩ := Option.isSome_iff_exists.mp hwhole
      subst hclass
      have htag : (Tag.float x).coerce .int = .int (saturate k) := by
        rw [Tag.coerce, hk, Option.getD_some]
      rw [htag]
      exact TagClass.keeps_int hk (hv.imp_right (.imp_right (.imp fun _ h => ⟨h.1, h.2.1⟩)))
    · exact absurd hclass.symm hfloat

/-- A literal is kept when data with it can be written as a tag of the class and carries the tag that
the literal became. -/
theorem keeps_iff {literal : Json} (ht : tagOf? literal = some tag)
    (hc : tag.tagClass = tagClass ∨ tag.tagClass.isNumeric ∧ tagClass = .float) :
    tagClass.keeps literal.toValue = true ↔
      (∃ written, tagClass.kind.encode? literal.toValue = some written) ∧
        (tag.coerce tagClass).matchesValue literal.toValue = true := by
  cases literal with
  | integer n =>
    cases ht
    exact keeps_number rfl (hc.imp_right And.right)
  | float x =>
    cases ht
    exact keeps_number rfl (hc.imp_right And.right)
  | string text =>
    cases ht
    obtain rfl : TagClass.string = tagClass := hc.resolve_right fun h => Bool.noConfusion h.1
    exact ⟨fun _ => ⟨⟨_, rfl⟩, beq_self_eq_true text⟩, fun _ => rfl⟩
  | bool flag =>
    cases ht
    obtain rfl : TagClass.boolean = tagClass := hc.resolve_right fun h => Bool.noConfusion h.1
    exact ⟨fun _ => ⟨⟨_, rfl⟩, beq_self_eq_true flag⟩, fun _ => rfl⟩
  | _ => cases ht

-- ---------------------------------------------------------------------------
-- Descriptions and their schemas
-- ---------------------------------------------------------------------------

theorem toSchemas_append (first second : List Description) :
    toSchemas (first ++ second) = (do
      let schemas ← toSchemas first
      let others ← toSchemas second
      return schemas ++ others) := by
  induction first with
  | nil => cases h : toSchemas second <;> simp [toSchemas, h, bind, Except.bind, pure, Except.pure]
  | cons description rest ih =>
    simp only [List.cons_append, toSchemas, ih, bind, Except.bind, pure, Except.pure]
    cases description.toSchema with
    | error => rfl
    | ok schema =>
      cases toSchemas rest with
      | error => rfl
      | ok schemas => cases toSchemas second <;> rfl

theorem toSchema_union_ok {before after : List Description}
    (h : (union discriminator (before ++ object fields :: after)).toSchema = .ok schema)
    (hbefore : toSchemas before = .ok earlier) (hfields : toSchemaFields fields = .ok declared) :
    ∃ later, schema = .union discriminator (earlier ++ .object declared :: later) := by
  rw [toSchema, toSchemas_append, hbefore, toSchemas, toSchema, hfields] at h
  cases ha : toSchemas after with
  | error => 
    rw [ha] at h
    cases h
  | ok later =>
    rw [ha] at h
    cases h
    exact ⟨later, rfl⟩

theorem lookup_toSchemaFields (h : toSchemaFields fields = .ok declared)
    (hl : fields.lookup name = some (literal value)) :
    ∃ constant, constantOf value = .ok constant ∧
      declared.lookup name = some (.literal constant) := by
  induction fields generalizing declared with
  | nil => cases hl
  | cons field rest ih =>
    obtain ⟨first, description⟩ := field
    rw [toSchemaFields, Schema.bind_ok] at h
    obtain ⟨schema, hs, h⟩ := h
    obtain ⟨others, ho, h⟩ := Schema.bind_ok.mp h
    obtain rfl := Schema.pure_ok.mp h
    rw [lookup_cons_ite] at hl
    rw [lookup_cons_ite]
    split at hl
    · cases hl
      rename_i hname
      rw [toSchema] at hs
      cases hc : constantOf value with
      | error => rw [hc] at hs; cases hs
      | ok constant =>
        rw [hc] at hs
        cases hs
        exact ⟨constant, rfl, if_pos hname⟩
    · rename_i hname
      obtain ⟨constant, hc, hl⟩ := ih ho hl
      exact ⟨constant, hc, by rw [if_neg hname, hl]⟩

end Description

namespace MemberFrame

theorem parts_of_member {parts : List MemberFrame}
    (h : parts.map (·.schema) = earlier ++ .object declared :: later) :
    ∃ first part last, parts = first ++ part :: last ∧ first.map (·.schema) = earlier ∧
      part.fields.map FieldFrame.field = declared := by
  obtain ⟨first, others, rfl, hfirst, hothers⟩ := List.map_eq_append_iff.mp h
  obtain ⟨part, last, rfl, hpart, -⟩ := List.map_eq_cons_iff.mp hothers
  exact ⟨first, part, last, rfl, hfirst, Schema.object.inj hpart⟩

theorem tags_of_literal {part : MemberFrame}
    (ht : Schema.memberTags discriminator path part.schema = .ok part.tags)
    (hl : (part.fields.map FieldFrame.field).lookup discriminator = some (.literal constant)) :
    ∃ tag, constant.tag? = some tag ∧ part.tags = [tag] := by
  rw [MemberFrame.schema, Schema.memberTags, hl] at ht
  cases hc : constant.tag? with
  | none =>
    simp only [hc] at ht
    cases ht
  | some tag =>
    simp only [hc] at ht
    exact ⟨tag, rfl, (Except.ok.inj ht).symm⟩

theorem tagged_append (first second : List MemberFrame) :
    tagged (first ++ second) = tagged first ++ tagged second := List.flatMap_append

/-- A member is chosen by the values of its tag that no tag before it matches. -/
theorem chosen?_of_first {before after : List MemberFrame} {part : MemberFrame}
    (ht : part.tags = [own]) (hm : (own.coerce tagClass).matchesValue tag = true)
    (hb : ∀ entry ∈ tagged before, (entry.1.coerce tagClass).matchesValue tag = false) :
    chosen? (before ++ part :: after) tagClass tag = some (own, part) := by
  have hnone : (tagged before).find? (fun entry => (entry.1.coerce tagClass).matchesValue tag) = none :=
    List.find?_eq_none.mpr fun entry he => by rw [hb entry he]; exact Bool.false_ne_true
  have hpart : tagged (part :: after) = (own, part) :: tagged after := by
    rw [tagged, List.flatMap_cons, ht]
    rfl
  rw [chosen?, tagged_append, List.find?_append, hnone, hpart, Option.none_or]
  exact List.find?_cons_of_pos hm

end MemberFrame

namespace Compiled

/-- A member that a tag selects is written as the tag and then what the object of its other fields
writes. -/
theorem emit_member {parts : List MemberFrame} {part : MemberFrame}
    (h : ∀ part ∈ parts, ∀ field ∈ part.fields,
      Compiled field.schema (path.child field.name) field.frame)
    (ht : ∀ part ∈ parts, Schema.memberTags discriminator path part.schema = .ok part.tags)
    (hb : Block.ofMembers discriminator path
      (parts.flatMap (MemberFrame.options discriminator path)) = .ok block)
    (hd : discriminator ≠ "") (hn : part.schema.wellNamed = true)
    (hu : Schema.unionClass? discriminator (parts.map (·.schema)) = some tagClass)
    (hp : MemberFrame.chosen? parts tagClass tag = some (own, part))
    (hx : x.lookup (path.child discriminator) = some tag)
    (he : tagClass.kind.encode? tag = some head)
    (hf : ∀ field ∈ part.fields, field.name ≠ discriminator →
      field.schema.Fits (x.lookup (path.child field.name))) :
    ∃ rest body, (Schema.object ((part.fields.map FieldFrame.field).filter
        (·.1 != discriminator))).compileInto path [] = .ok rest ∧
      Program.encode rest x = .ok body ∧ block.emit x = .ofBytes (head ++ body) := by
  have hmem := (MemberFrame.mem_of_chosen? hp).1
  obtain ⟨hnames, hfields⟩ := Schema.wellNamed_fields.mp hn
  obtain ⟨body, hbody⟩ := emits_body (h part hmem) hnames (ht part hmem) fun field hfield hne =>
    (h part hmem field hfield).emits_of_fits (hfields field hfield) (hf field hfield hne)
  refine ⟨part.body discriminator path, body,
    MemberFrame.compile_body (h part hmem) hnames (ht part hmem), Program.encode_ok.mpr hbody, ?_⟩
  rw [MemberFrame.unionClass?_eq ht] at hu
  refine emit_union hd hb hu hx he ?_
  rwa [MemberFrame.chosenBody, hp]

end Compiled

namespace Description

/-- Data that names a member by its literal is written as the tag and then all the other fields of the
member, where the union's class of tags keeps the literal and no member before it has a tag that
rounds to the literal's number. -/
theorem union_written {path : Path} {frame program : Program} {x : Value} {literal data : Json}
    {before after : List Description} {fields : List (String × Description)}
    (hs : (union discriminator (before ++ object fields :: after)).toSchema
      = .ok (.union discriminator members))
    (hc : (Schema.union discriminator members).compileInto path frame = .ok program)
    (hne : discriminator ≠ "") (hn : (Schema.object declared).wellNamed = true)
    (hl : fields.lookup discriminator = some (.literal literal))
    (hbefore : toSchemas before = .ok earlier) (hfields : toSchemaFields fields = .ok declared)
    (hu : Schema.unionClass? discriminator members = some tagClass)
    (hx : x.lookup path = some data.toValue) (hd : data.member? discriminator = some literal)
    (hf : ∀ field ∈ declared, field.1 ≠ discriminator →
      field.2.Fits ((data.member? field.1).map Json.toValue))
    (hkeep : tagClass.keeps literal.toValue = true)
    (hfirst : ∀ option ∈ Schema.taggedMembers discriminator earlier,
      (option.1.coerce tagClass).matchesValue literal.toValue = false) :
    ∃ head rest body, tagClass.kind.encode? literal.toValue = some head ∧
      (Schema.object (declared.filter (·.1 != discriminator))).compileInto path [] = .ok rest ∧
      Program.encode rest x = .ok body ∧
      ∀ written, Program.encode frame x = .ok written →
        Program.encode program x = .ok (head ++ body ++ written) := by
  obtain ⟨later, hschema⟩ := toSchema_union_ok hs hbefore hfields
  obtain ⟨constant, hconstant, hdeclared⟩ := lookup_toSchemaFields hfields hl
  obtain ⟨_, hunion, rfl⟩ := Schema.compileInto_ok _ hc
  obtain ⟨parts, block, rfl, rfl, h, ht, hb⟩ := hunion.union_inv
  obtain ⟨first, part, last, rfl, rfl, rfl⟩ :=
    MemberFrame.parts_of_member (Schema.union.inj hschema).2
  have hmem : part ∈ first ++ part :: last := List.mem_append_right _ (List.mem_cons_self ..)
  -- data with the literal carries the tag that the literal became
  obtain ⟨tag, htag, htags⟩ := MemberFrame.tags_of_literal (ht part hmem) hdeclared
  have hliteral : tagOf? literal = some tag := by simp only [tagOf?, hconstant, htag]
  have hown : tag ∈ part.tags := htags ▸ List.mem_singleton_self tag
  have hunify := (MemberFrame.unionClass?_eq ht).symm.trans hu
  have hclass := TagClass.unify?_eq_some hunify
    (List.mem_map.mpr ⟨_, MemberFrame.mem_options discriminator path hmem hown, rfl⟩)
  obtain ⟨⟨head, he⟩, hmatch⟩ := (keeps_iff hliteral hclass).mp hkeep
  have hchosen : MemberFrame.chosen? (first ++ part :: last) tagClass literal.toValue
      = some (tag, part) := by
    refine MemberFrame.chosen?_of_first htags hmatch fun entry hentry => ?_
    refine hfirst (entry.1, entry.2.schema) ?_
    rw [MemberFrame.taggedMembers_eq fun part hp => ht part (List.mem_append_left _ hp)]
    exact List.mem_map_of_mem hentry
  have hlookup : ∀ name, x.lookup (path.child name) = (data.member? name).map Json.toValue := by
    intro name
    rw [Value.lookup_child, hx, Option.bind_some, Json.lookup_fields_toValue]
  obtain ⟨rest, body, hrest, hbody, hblock⟩ := Compiled.emit_member h ht hb hne hn hu hchosen
    (by rw [hlookup, hd, Option.map_some]) he fun field hfield hname => by
      rw [hlookup]
      exact hf _ (List.mem_map_of_mem (f := FieldFrame.field) hfield) hname
  refine ⟨head, rest, body, he, hrest, hbody, fun written hw => Program.encode_ok.mpr ?_⟩
  show Block.emitAll (block :: frame ++ []) x = _
  rw [List.append_nil]
  exact Block.emitAll_cons_ok.mpr ⟨head ++ body, written, hblock, Program.encode_ok.mp hw, rfl⟩

/-- The second of two members known by integers, with one field beside the tag. -/
theorem union_written_two : ∃ schema program body,
    (union "t" [object [("t", literal (.integer 1)), ("s", string)],
      object [("t", literal (.integer 2)), ("n", number true none none)]]).toSchema = .ok schema ∧
    schema.compile = .ok program ∧
    Program.encode [.primitive .int ["n"]]
      (Json.object [("n", .integer 5), ("t", .integer 2)]).toValue = .ok body ∧
    program.encode (Json.object [("n", .integer 5), ("t", .integer 2)]).toValue
      = .ok ([4] ++ body) := by
  have hs : (union "t" ([object [("t", literal (.integer 1)), ("s", string)]] ++
      object [("t", literal (.integer 2)), ("n", number true none none)] :: [])).toSchema
      = .ok (.union "t" [.object [("t", .literal (.number (.ofInt 1))), ("s", .string)],
        .object [("t", .literal (.number (.ofInt 2))), ("n", .number [.int])]]) := rfl
  have hm : Schema.compileMembers "t" []
      [.object [("t", .literal (.number (.ofInt 1))), ("s", .string)],
        .object [("t", .literal (.number (.ofInt 2))), ("n", .number [.int])]]
      = .ok [(.float (.ofInt 1), [.primitive .string ["s"]]),
        (.float (.ofInt 2), [.primitive .int ["n"]])] := rfl
  have hu : TagClass.unify? [(Tag.float (.ofInt 1)).tagClass, (Tag.float (.ofInt 2)).tagClass]
      = some .int := by decide +kernel
  have hx : (Json.object [("n", .integer 5), ("t", .integer 2)]).toValue.lookup []
      = some (Json.object [("n", .integer 5), ("t", .integer 2)]).toValue := rfl
  have hc := Schema.compileInto_union hm hu []
  obtain ⟨head, rest, body, hhead, hrest, hbody, h⟩ :=
    union_written hs hc (by decide) rfl rfl rfl rfl hu hx rfl
      (List.forall_mem_cons.mpr ⟨fun h => absurd rfl h,
        List.forall_mem_singleton.mpr fun _ => .leaf rfl rfl⟩) (by decide +kernel) (by decide +kernel)
  have he : TagClass.int.kind.encode? (Json.integer 2).toValue = some [4] := by decide +kernel
  obtain rfl := Option.some.inj (hhead.symm.trans he)
  have hwritten := h [] rfl
  rw [List.append_nil] at hwritten
  cases hrest
  exact ⟨_, _, body, hs, hc, hbody, hwritten⟩

/-- An integer that no float holds is rounded in the description and not in the data. Its tag is
written, and nothing else; or, where the number that it rounds to names a member behind it, data of
that member is written under the fields of the wrong one. A float out of range is not written at all. -/
theorem union_lost :
    (∃ schema program, (union "t" [object [("t", literal (.integer 9007199254740993)),
        ("n", number true none none)]]).toSchema = .ok schema ∧ schema.compile = .ok program ∧
      program.encode (Json.object [("n", .integer 5), ("t", .integer 9007199254740993)]).toValue
        = .ok [130, 128, 128, 128, 128, 128, 128, 32]) ∧
    (∃ schema program, (union "t" [object [("t", literal (.integer 9007199254740993)), ("s", string)],
        object [("t", literal (.integer 9007199254740992)), ("n", number true none none)]]).toSchema
        = .ok schema ∧ schema.compile = .ok program ∧
      program.encode (Json.object [("n", .integer 5), ("t", .integer 9007199254740992)]).toValue
        = .error (.missingValue ["s"])) ∧
    ∃ schema program, (union "t" [object [("t", literal (.float ⟨0x7e37e43c8800759c⟩)),
        ("n", number true none none)]]).toSchema = .ok schema ∧ schema.compile = .ok program ∧
      program.encode (Json.object [("n", .integer 5), ("t", .float ⟨0x7e37e43c8800759c⟩)]).toValue
        = .error (.typeMismatch ["t"] "int" "F64") := by
  have hm : ∀ x : Binary64, Schema.compileMembers "t" []
      [.object [("t", .literal (.number x)), ("n", .number [.int])]]
      = .ok [(.float x, [.primitive .int ["n"]])] := fun _ => rfl
  have hpair : ∀ x y : Binary64, Schema.compileMembers "t" []
      [.object [("t", .literal (.number x)), ("s", .string)],
        .object [("t", .literal (.number y)), ("n", .number [.int])]]
      = .ok [(.float x, [.primitive .string ["s"]]), (.float y, [.primitive .int ["n"]])] :=
    fun _ _ => rfl
  have hone : TagClass.unify? [(Tag.float (.ofInt 9007199254740993)).tagClass] = some .int := by
    decide +kernel
  have htwo : TagClass.unify? [(Tag.float (.ofInt 9007199254740993)).tagClass,
      (Tag.float (.ofInt 9007199254740992)).tagClass] = some .int := by decide +kernel
  have hlarge : TagClass.unify? [(Tag.float ⟨0x7e37e43c8800759c⟩).tagClass] = some .int := by
    decide +kernel
  refine ⟨⟨_, _, rfl, Schema.compileInto_union (hm _) hone [], ?_⟩,
    ⟨_, _, rfl, Schema.compileInto_union (hpair _ _) htwo [], ?_⟩,
    _, _, rfl, Schema.compileInto_union (hm _) hlarge [], ?_⟩
  all_goals decide +kernel

end Description

end Positional
