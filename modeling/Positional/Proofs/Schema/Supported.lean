import Positional.Proofs.Schema.Nodes

/-!
# Which schemas compile

What a schema is rejected for is the fault of one of its nodes (`Offence`). They are met in order of
declaration, each node before what it holds, a member's tag before the member and the tags of a union
behind its members (`offences`). Compiling fails with the first, so what compiles are the schemas
without any (`Supported`).
-/

namespace Positional

namespace Schema

def tagField? (discriminator : String) : Schema → Option Schema
  | object fields => fields.lookup discriminator
  | _ => none

/-- The kind of a member's tags, which are a literal text, number or flag, or one or more enumerated
texts. -/
def tagKind? (discriminator : String) (member : Schema) : Option Kind :=
  match member.tagField? discriminator with
  | some (literal constant) => constant.kind?
  | some (enum (_ :: _)) => some .string
  | _ => none

/-- The nodes of the schema have a form on the wire: none is an integer of any size, of any type or
converted, no literal is an integer of any size or null, and the members of each union are tagged by
one kind. -/
structure Supported (schema : Schema) : Prop where
  bigint : ¬ NodeAt schema [] q .bigint
  any : ¬ NodeAt schema [] q .any
  transformed {inner : Schema} : ¬ NodeAt schema [] q (.transformed inner)
  literal : NodeAt schema [] q (.literal constant) → constant ≠ .null ∧ ∀ n, constant ≠ .bigint n
  union : NodeAt schema [] q (.union discriminator members) →
    ∃ kind, ∀ member ∈ members, member.tagKind? discriminator = some kind

end Schema

open Schema

/-- What a node at a path is rejected for by itself. -/
inductive Offence : Schema → Path → Error → Prop
  | bigint : Offence .bigint path (.unsupportedSchema path)
  | any : Offence .any path (.unsupportedSchema path)
  | transformed {inner : Schema} : Offence (.transformed inner) path .unsupportedEffect
  | literal (h : constant.kind? = none) : Offence (.literal constant) path .unsupportedLiteral
  | member {member : Schema} (hm : member ∈ members)
      (hl : ∀ constant, member.tagField? discriminator ≠ some (.literal constant))
      (he : ∀ first rest, member.tagField? discriminator ≠ some (.enum (first :: rest))) :
      Offence (.union discriminator members) path (.invalidUnionMember path discriminator)
  | union {first second : Schema} (hf : first ∈ members) (hs : second ∈ members)
      (hk : first.tagKind? discriminator = some kind)
      (hk' : second.tagKind? discriminator = some kind') (hne : kind ≠ kind') :
      Offence (.union discriminator members) path (.undecidableDiscriminator path)

def Constant.offences (constant : Constant) : List Error :=
  if constant.kind?.isSome then [] else [.unsupportedLiteral]

namespace Schema

def tagOffences (discriminator : String) (path : Path) (member : Schema) : List Error :=
  match member.tagField? discriminator with
  | some (literal constant) => constant.offences
  | some (enum (_ :: _)) => []
  | _ => [.invalidUnionMember path discriminator]

def tagKinds (discriminator : String) (members : List Schema) : List Kind :=
  members.filterMap (tagKind? discriminator)

def unionOffences (discriminator : String) (path : Path) (members : List Schema) : List Error :=
  let kinds := tagKinds discriminator members
  if ∀ kind ∈ kinds, ∀ other ∈ kinds, kind = other then [] else [.undecidableDiscriminator path]

mutual

/-- What a schema at a path is rejected for, in the order in which it is met. -/
def offences : Schema → Path → List Error
  | object fields, path => fieldOffences fields path
  | union discriminator members, path =>
    memberOffences discriminator path members ++ unionOffences discriminator path members
  | literal constant, _ => constant.offences
  | array element, _ => element.offences []
  | optional inner, path => inner.offences path
  | nullable inner, path => inner.offences path
  | refined accepts inner, path => if isBytesCheck accepts then [] else inner.offences path
  | transformed _, _ => [.unsupportedEffect]
  | bigint, path => [.unsupportedSchema path]
  | any, path => [.unsupportedSchema path]
  | _, _ => []

def fieldOffences : List (String × Schema) → Path → List Error
  | [], _ => []
  | (name, field) :: rest, path => field.offences (path.child name) ++ fieldOffences rest path

def memberOffences (discriminator : String) (path : Path) : List Schema → List Error
  | [] => []
  | member :: rest =>
    tagOffences discriminator path member ++
      (member.offences path ++ memberOffences discriminator path rest)

end

-- ---------------------------------------------------------------------------
-- The first offence
-- ---------------------------------------------------------------------------

/-- A result that is good without offences, and otherwise reports the first. -/
def Reports : List Error → Except Error α → Prop
  | [], result => ∃ a, result = .ok a
  | first :: _, result => result = .error first

theorem Reports.bind {first second : List Error} {x : Except Error α} {next : α → Except Error β}
    (h : Reports first x) (hn : ∀ a, x = .ok a → Reports second (next a)) :
    Reports (first ++ second) (x >>= next) := by
  cases first with
  | nil =>
    obtain ⟨a, rfl⟩ := h
    exact hn a rfl
  | cons error rest =>
    cases h
    exact rfl

theorem Reports.map {offences : List Error} {x : Except Error α} (h : Reports offences x) (f : α → β) :
    Reports offences (do return f (← x)) := by
  rw [← List.append_nil offences]
  exact h.bind fun a _ => ⟨f a, rfl⟩

theorem Reports.ok_iff {offences : List Error} {result : Except Error α}
    (h : Reports offences result) : (∃ a, result = .ok a) ↔ offences = [] := by
  cases offences with
  | nil => exact iff_of_true h rfl
  | cons first rest =>
    cases h
    simp

theorem Reports.error_iff {offences : List Error} {result : Except Error α}
    (h : Reports offences result) : result = .error error ↔ offences.head? = some error := by
  cases offences with
  | nil =>
    obtain ⟨a, rfl⟩ := h
    simp
  | cons first rest =>
    cases h
    simp

theorem reports_literal (constant : Constant) (path : Path) (frame : Program) :
    Reports constant.offences ((literal constant).compileInto path frame) := by
  rw [compileInto]
  cases constant with
  | bigint | null => exact rfl
  | _ => exact ⟨_, rfl⟩

theorem reports_memberTags (discriminator : String) (path : Path) (member : Schema) :
    Reports (tagOffences discriminator path member) (memberTags discriminator path member) := by
  cases member with
  | object fields =>
    rw [tagOffences, tagField?, memberTags]
    cases fields.lookup discriminator with
    | none => exact rfl
    | some field =>
      cases field with
      | literal constant =>
        cases constant with
        | bigint | null => exact rfl
        | _ => exact ⟨_, rfl⟩
      | enum values =>
        cases values with
        | nil => exact rfl
        | cons first rest => exact ⟨_, rfl⟩
      | _ => exact rfl
  | _ => exact rfl

end Schema

-- ---------------------------------------------------------------------------
-- Tags in common
-- ---------------------------------------------------------------------------

namespace TagClass

def common : TagClass → Kind
  | int | float => .float
  | boolean => .boolean
  | string => .string

theorem common_eq {first second : TagClass} : first.common = second.common ↔
    first = second ∨ (first.isNumeric = true ∧ second.isNumeric = true) := by
  cases first <;> cases second <;> decide

theorem unify?_isSome (classes : List TagClass) : (unify? classes).isSome = true ↔
    ∀ first ∈ classes, ∀ second ∈ classes, first.common = second.common := by
  cases classes with
  | nil => simp [unify?]
  | cons first rest =>
    rw [unify?]
    by_cases hsame : (rest.all (· == first)) = true
    · have hall : ∀ other ∈ first :: rest, other = first :=
        List.forall_mem_cons.mpr ⟨rfl, fun other ho => eq_of_beq (List.all_eq_true.mp hsame other ho)⟩
      rw [if_pos hsame]
      exact iff_of_true rfl fun a ha b hb => by rw [hall a ha, hall b hb]
    · by_cases hnumbers : (first.isNumeric && rest.all isNumeric) = true
      · have hall : ∀ other ∈ first :: rest, other.isNumeric = true := by
          obtain ⟨hfirst, hrest⟩ := Bool.and_eq_true_iff.mp hnumbers
          exact List.forall_mem_cons.mpr ⟨hfirst, List.all_eq_true.mp hrest⟩
        rw [if_neg hsame, if_pos hnumbers]
        exact iff_of_true rfl fun a ha b hb => common_eq.mpr (.inr ⟨hall a ha, hall b hb⟩)
      · rw [if_neg hsame, if_neg hnumbers]
        refine iff_of_false Bool.false_ne_true fun h => ?_
        have hrest (other : TagClass) (ho : other ∈ rest) :=
          common_eq.mp (h first (List.mem_cons_self ..) other (List.mem_cons_of_mem _ ho))
        -- a number has only numbers beside it, any other class only itself
        cases hfirst : first.isNumeric with
        | true =>
          refine hnumbers (Bool.and_eq_true_iff.mpr ⟨hfirst, List.all_eq_true.mpr fun other ho => ?_⟩)
          rcases hrest other ho with rfl | ⟨-, hother⟩
          · exact hfirst
          · exact hother
        | false =>
          refine hsame (List.all_eq_true.mpr fun other ho => ?_)
          rcases hrest other ho with rfl | ⟨hnumber, -⟩
          · exact beq_self_eq_true _
          · exact absurd hnumber (by simp [hfirst])

end TagClass

namespace Schema

theorem memberTags_kind (h : memberTags discriminator path member = .ok tags) :
    ∃ kind, member.tagKind? discriminator = some kind ∧ tags ≠ [] ∧
      ∀ tag ∈ tags, tag.tagClass.common = kind := by
  cases member with
  | object fields =>
    rw [memberTags] at h
    rw [tagKind?, tagField?]
    cases hl : fields.lookup discriminator with
    | none =>
      rw [hl] at h
      cases h
    | some field =>
      rw [hl] at h
      cases field with
      | literal constant =>
        cases constant with
        | bigint | null => cases h
        | number x =>
          cases h
          refine ⟨.float, rfl, List.cons_ne_nil _ _, List.forall_mem_singleton.mpr ?_⟩
          rw [Tag.tagClass]
          split <;> rfl
        | _ =>
          cases h
          exact ⟨_, rfl, List.cons_ne_nil _ _, List.forall_mem_singleton.mpr rfl⟩
      | enum values =>
        cases values with
        | nil => cases h
        | cons first rest =>
          cases h
          exact ⟨.string, rfl, List.cons_ne_nil _ _, by simp [Tag.tagClass, TagClass.common]⟩
      | _ => cases h
  | _ => cases h

theorem mem_tagKinds {members : List Schema}
    (h : compileMembers discriminator path members = .ok options) :
    kind ∈ tagKinds discriminator members ↔ ∃ option ∈ options, option.1.tagClass.common = kind := by
  obtain ⟨parts, rfl, -, ht, rfl⟩ := compileMembers_ok members h
  rw [tagKinds, List.mem_filterMap]
  constructor
  · rintro ⟨_, hmember, hkind⟩
    obtain ⟨part, hp, rfl⟩ := List.mem_map.mp hmember
    obtain ⟨_, hkind', hne, htags⟩ := memberTags_kind (ht part hp)
    cases hkind.symm.trans hkind'
    obtain ⟨tag, htag⟩ := List.exists_mem_of_ne_nil _ hne
    exact ⟨_, List.mem_flatMap.mpr ⟨part, hp, List.mem_map_of_mem htag⟩, htags tag htag⟩
  · rintro ⟨option, ho, rfl⟩
    obtain ⟨part, hp, ho⟩ := List.mem_flatMap.mp ho
    obtain ⟨tag, htag, rfl⟩ := List.mem_map.mp ho
    obtain ⟨kind, hkind, -, htags⟩ := memberTags_kind (ht part hp)
    exact ⟨_, List.mem_map_of_mem hp, by rw [hkind, htags tag htag]⟩

theorem reports_ofMembers {members : List Schema}
    (h : compileMembers discriminator path members = .ok options) :
    Reports (unionOffences discriminator path members)
      (Block.ofMembers discriminator path options) := by
  have hagree : (TagClass.unify? (options.map (·.1.tagClass))).isSome = true ↔
      ∀ kind ∈ tagKinds discriminator members,
        ∀ other ∈ tagKinds discriminator members, kind = other := by
    simp only [TagClass.unify?_isSome, List.forall_mem_map]
    constructor
    · intro hoptions kind hk other ho
      obtain ⟨first, hf, rfl⟩ := (mem_tagKinds h).mp hk
      obtain ⟨second, hs, rfl⟩ := (mem_tagKinds h).mp ho
      exact hoptions first hf second hs
    · intro hkinds first hf second hs
      exact hkinds _ ((mem_tagKinds h).mpr ⟨first, hf, rfl⟩) _ ((mem_tagKinds h).mpr ⟨second, hs, rfl⟩)
  rw [unionOffences, Block.ofMembers]
  cases hu : TagClass.unify? (options.map (·.1.tagClass)) with
  | some tagClass =>
    rw [if_pos (hagree.mp (by rw [hu]; rfl))]
    exact ⟨_, rfl⟩
  | none =>
    rw [if_neg fun hkinds => by simpa [hu] using hagree.mpr hkinds]
    exact rfl

mutual

/-- Compiling reports the first offence, whatever the frame. -/
theorem reports_compileInto : (schema : Schema) → (path : Path) → (frame : Program) →
    Reports (schema.offences path) (schema.compileInto path frame)
  | .object fields, path, frame => by
    rw [offences, compileInto]
    exact reports_compileFields fields path frame
  | .union discriminator members, path, frame => by
    rw [offences, compileInto]
    exact (reports_compileMembers discriminator path members).bind fun options ho =>
      (reports_ofMembers ho).map (· :: frame)
  | .array element, path, frame => by
    rw [offences, compileInto]
    exact (reports_compileInto element [] []).map _
  | .optional inner, path, frame => by
    rw [offences, compileInto]
    exact (reports_compileInto inner path []).map _
  | .nullable inner, path, frame => by
    rw [offences, compileInto]
    exact (reports_compileInto inner path []).map _
  | .refined accepts inner, path, frame => by
    rw [offences, compileInto]
    split
    · exact ⟨_, rfl⟩
    · exact reports_compileInto inner path frame
  | .literal constant, path, frame => reports_literal constant path frame
  | .transformed _, _, _ | .bigint, _, _ | .any, _, _ => rfl
  | .string, _, _ | .boolean, _, _ | .date, _, _ | .null, _, _ | .number _, _, _ | .enum _, _, _ =>
    ⟨_, rfl⟩

theorem reports_compileFields : (fields : List (String × Schema)) → (path : Path) →
    (frame : Program) → Reports (fieldOffences fields path) (compileFields fields path frame)
  | [], _, _ => ⟨_, rfl⟩
  | (name, field) :: rest, path, frame => by
    rw [fieldOffences, compileFields]
    exact (reports_compileInto field (path.child name) frame).bind fun extended _ =>
      reports_compileFields rest path extended

theorem reports_compileMembers (discriminator : String) (path : Path) : (members : List Schema) →
    Reports (memberOffences discriminator path members) (compileMembers discriminator path members)
  | [] => ⟨_, rfl⟩
  | member :: rest => by
    rw [memberOffences, compileMembers]
    exact (reports_memberTags discriminator path member).bind fun _ _ =>
      (reports_compileInto member path []).bind fun _ _ =>
        (reports_compileMembers discriminator path rest).map _

end

-- ---------------------------------------------------------------------------
-- The nodes at fault
-- ---------------------------------------------------------------------------

theorem mem_constant_offences : error ∈ Constant.offences constant ↔
    constant.kind? = none ∧ error = .unsupportedLiteral := by
  rw [Constant.offences]
  cases constant.kind? <;> simp

theorem mem_unionOffences {members : List Schema} :
    error ∈ unionOffences discriminator path members ↔ error = .undecidableDiscriminator path ∧
      ∃ kind ∈ tagKinds discriminator members,
        ∃ other ∈ tagKinds discriminator members, kind ≠ other := by
  rw [unionOffences]
  split
  · rename_i hagree
    simp only [List.not_mem_nil, false_iff, not_and, not_exists]
    exact fun _ kind hk other ho hne => hne (hagree kind hk other ho)
  · rename_i hagree
    simp only [Classical.not_forall] at hagree
    obtain ⟨kind, hk, other, ho, hne⟩ := hagree
    simpa using fun _ => ⟨kind, hk, other, ho, hne⟩

theorem mem_fieldOffences {fields : List (String × Schema)} : error ∈ fieldOffences fields path ↔
    ∃ field ∈ fields, error ∈ field.2.offences (path.child field.1) := by
  induction fields with
  | nil => simp [fieldOffences]
  | cons field rest ih => simp [fieldOffences, ih]

theorem mem_memberOffences {members : List Schema} :
    error ∈ memberOffences discriminator path members ↔ ∃ member ∈ members,
      error ∈ tagOffences discriminator path member ∨ error ∈ member.offences path := by
  induction members with
  | nil => simp [memberOffences]
  | cons member rest ih => simp [memberOffences, ih, or_assoc]

theorem offences_slot {schema inner : Schema} (hi : schema.slotOf? = some inner) (path : Path) :
    schema.offences path = inner.offences path := by
  cases schema <;> cases hi <;> rw [offences]

theorem hereditary_offences (error : Error) :
    Hereditary fun node q => error ∉ node.offences q where
  field h field hf hmem := h (by rw [offences]; exact mem_fieldOffences.mpr ⟨field, hf, hmem⟩)
  member h member hm hmem := h (by
    rw [offences]
    exact List.mem_append_left _ (mem_memberOffences.mpr ⟨member, hm, .inr hmem⟩))
  element h := by rwa [offences] at h
  slot hi h := by rwa [offences_slot hi] at h
  refined ha h := by rwa [offences, if_neg (by simp [ha])] at h

theorem mem_of_offence (h : Offence node path error) : error ∈ node.offences path := by
  cases h with
  | literal h =>
    rw [offences]
    exact mem_constant_offences.mpr ⟨h, rfl⟩
  | member hm hl he =>
    rw [offences]
    refine List.mem_append_left _ (mem_memberOffences.mpr ⟨_, hm, .inl ?_⟩)
    rw [tagOffences]
    split
    · exact absurd ‹_› (hl _)
    · exact absurd ‹_› (he _ _)
    · exact List.mem_singleton_self _
  | union hf hs hk hk' hne =>
    rw [offences]
    exact List.mem_append_right _ (mem_unionOffences.mpr ⟨rfl,
      _, List.mem_filterMap.mpr ⟨_, hf, hk⟩, _, List.mem_filterMap.mpr ⟨_, hs, hk'⟩, hne⟩)
  | _ => simp [offences]

def Faulty (schema : Schema) (path : Path) (error : Error) : Prop :=
  ∃ q node, NodeAt schema path q node ∧ Offence node q error

theorem Faulty.of_part {part : Schema} (h : Faulty part inside error)
    (hn : ∀ {q node}, NodeAt part inside q node → NodeAt schema path q node) :
    Faulty schema path error := by
  obtain ⟨q, node, hpart, ho⟩ := h
  exact ⟨q, node, hn hpart, ho⟩

/-- What a member's tag is rejected for is the fault of the union, or of a literal in the member. -/
theorem faulty_of_tag {member : Schema} (hm : member ∈ members)
    (h : error ∈ tagOffences discriminator path member) :
    Faulty (union discriminator members) path error := by
  rw [tagOffences] at h
  split at h
  · rename_i constant hl
    obtain ⟨hk, rfl⟩ := mem_constant_offences.mp h
    cases member with
    | object fields => exact ⟨_, _, .member hm (.field (mem_of_lookup hl) .here), .literal hk⟩
    | _ => cases hl
  · cases h
  · rename_i hl he
    obtain rfl := List.mem_singleton.mp h
    exact ⟨_, _, .here, .member hm hl he⟩

theorem faulty_of_tags {members : List Schema} (h : error ∈ unionOffences discriminator path members) :
    Faulty (union discriminator members) path error := by
  obtain ⟨rfl, kind, hk, other, ho, hne⟩ := mem_unionOffences.mp h
  obtain ⟨first, hf, hk⟩ := List.mem_filterMap.mp hk
  obtain ⟨second, hs, ho⟩ := List.mem_filterMap.mp ho
  exact ⟨path, _, .here, .union hf hs hk ho hne⟩

mutual

theorem faulty_of_mem : (schema : Schema) → (path : Path) → error ∈ schema.offences path →
    Faulty schema path error
  | .object fields, path, h => by
    rw [offences] at h
    obtain ⟨field, hf, hfaulty⟩ := faulty_of_field fields path h
    exact hfaulty.of_part (.field hf)
  | .union discriminator members, path, h => by
    rw [offences] at h
    rcases List.mem_append.mp h with h | h
    · obtain ⟨member, hm, htag | hfaulty⟩ := faulty_of_member discriminator path members h
      · exact faulty_of_tag hm htag
      · exact hfaulty.of_part (.member hm)
    · exact faulty_of_tags h
  | .array element, path, h => by
    rw [offences] at h
    exact (faulty_of_mem element [] h).of_part .element
  | .optional inner, path, h => by
    rw [offences] at h
    exact (faulty_of_mem inner path h).of_part (.slot rfl)
  | .nullable inner, path, h => by
    rw [offences] at h
    exact (faulty_of_mem inner path h).of_part (.slot rfl)
  | .refined accepts inner, path, h => by
    rw [offences] at h
    cases ha : isBytesCheck accepts with
    | true => simp [ha] at h
    | false =>
      rw [if_neg (by simp [ha])] at h
      exact (faulty_of_mem inner path h).of_part (.refined ha)
  | .literal constant, path, h => by
    rw [offences] at h
    obtain ⟨hk, rfl⟩ := mem_constant_offences.mp h
    exact ⟨path, _, .here, .literal hk⟩
  | .transformed _, path, h => by
    obtain rfl := List.mem_singleton.mp h
    exact ⟨path, _, .here, .transformed⟩
  | .bigint, path, h => by
    obtain rfl := List.mem_singleton.mp h
    exact ⟨path, _, .here, .bigint⟩
  | .any, path, h => by
    obtain rfl := List.mem_singleton.mp h
    exact ⟨path, _, .here, .any⟩

theorem faulty_of_field : (fields : List (String × Schema)) → (path : Path) →
    error ∈ fieldOffences fields path →
    ∃ field ∈ fields, Faulty field.2 (path.child field.1) error
  | (name, field) :: rest, path, h => by
    rw [fieldOffences] at h
    rcases List.mem_append.mp h with h | h
    · exact ⟨_, List.mem_cons_self .., faulty_of_mem field (path.child name) h⟩
    · obtain ⟨other, ho, hfaulty⟩ := faulty_of_field rest path h
      exact ⟨other, List.mem_cons_of_mem _ ho, hfaulty⟩

theorem faulty_of_member (discriminator : String) (path : Path) : (members : List Schema) →
    error ∈ memberOffences discriminator path members →
    ∃ member ∈ members, error ∈ tagOffences discriminator path member ∨ Faulty member path error
  | member :: rest, h => by
    rw [memberOffences] at h
    rcases List.mem_append.mp h with h | h
    · exact ⟨_, List.mem_cons_self .., .inl h⟩
    · rcases List.mem_append.mp h with h | h
      · exact ⟨_, List.mem_cons_self .., .inr (faulty_of_mem member path h)⟩
      · obtain ⟨other, ho, hfaulty⟩ := faulty_of_member discriminator path rest h
        exact ⟨other, List.mem_cons_of_mem _ ho, hfaulty⟩

end

theorem mem_offences {schema : Schema} : error ∈ schema.offences path ↔ Faulty schema path error := by
  refine ⟨faulty_of_mem schema path, fun ⟨q, node, hn, ho⟩ => ?_⟩
  by_cases h : error ∈ schema.offences path
  · exact h
  · exact absurd (mem_of_offence ho) ((hereditary_offences error).nodes hn h)

theorem Supported.not_offence {schema : Schema} (h : schema.Supported) (hn : NodeAt schema [] q node) :
    ¬ Offence node q error := by
  intro ho
  cases ho with
  | bigint => exact h.bigint hn
  | any => exact h.any hn
  | transformed => exact h.transformed hn
  | @literal constant _ hk =>
    obtain ⟨hnull, hbigint⟩ := h.literal hn
    cases constant with
    | null => exact hnull rfl
    | bigint n => exact hbigint n rfl
    | _ => cases hk
  | member hm hl he =>
    obtain ⟨kind, hkind⟩ := h.union hn
    have htag := hkind _ hm
    rw [tagKind?] at htag
    split at htag
    · exact hl _ ‹_›
    · exact he _ _ ‹_›
    · cases htag
  | union hf hs hk hk' hne =>
    obtain ⟨kind, hkind⟩ := h.union hn
    exact hne (Option.some.inj (hk.symm.trans ((hkind _ hf).trans ((hkind _ hs).symm.trans hk'))))

theorem supported_of_not_offence {schema : Schema}
    (h : ∀ q node error, NodeAt schema [] q node → ¬ Offence node q error) : schema.Supported where
  bigint hn := h _ _ _ hn .bigint
  any hn := h _ _ _ hn .any
  transformed hn := h _ _ _ hn .transformed
  literal hn := by
    constructor
    · rintro rfl
      exact h _ _ _ hn (.literal rfl)
    · rintro n rfl
      exact h _ _ _ hn (.literal rfl)
  union := by
    intro q discriminator members hn
    have htag : ∀ member ∈ members, ∃ kind, member.tagKind? discriminator = some kind := by
      intro member hm
      cases htag : member.tagKind? discriminator with
      | some kind => exact ⟨kind, rfl⟩
      | none =>
        exfalso
        rw [tagKind?] at htag
        split at htag
        · rename_i constant hl
          cases member with
          | object fields =>
            exact h _ _ _ (hn.trans (.member hm (.field (mem_of_lookup hl) .here))) (.literal htag)
          | _ => cases hl
        · cases htag
        · rename_i hl he
          exact h _ _ _ hn (.member hm hl he)
    cases members with
    | nil => exact ⟨.null, List.forall_mem_nil _⟩
    | cons first rest =>
      obtain ⟨kind, hkind⟩ := htag first (List.mem_cons_self ..)
      refine ⟨kind, fun member hm => ?_⟩
      obtain ⟨other, hother⟩ := htag member hm
      by_cases hne : kind = other
      · rw [hother, hne]
      · exact absurd (Offence.union (List.mem_cons_self ..) hm hkind hother hne) (h _ _ _ hn)

theorem offences_eq_nil {schema : Schema} : schema.offences [] = [] ↔ schema.Supported := by
  rw [List.eq_nil_iff_forall_not_mem]
  constructor
  · exact fun h => supported_of_not_offence fun q node error hn ho =>
      h error (mem_offences.mpr ⟨q, node, hn, ho⟩)
  · intro h error hmem
    obtain ⟨q, node, hn, ho⟩ := mem_offences.mp hmem
    exact h.not_offence hn ho

/-- A schema compiles exactly if it is supported. Otherwise compiling fails with the first offence, and
the offences are those of the nodes; a node without a form on the wire is told by its path, which is
relative to the closest element of an array. -/
theorem compile_supported (schema : Schema) :
    ((∃ program, schema.compile = .ok program) ↔ schema.Supported) ∧
    (∀ error, schema.compile = .error error ↔ (schema.offences []).head? = some error) ∧
    (∀ error, error ∈ schema.offences [] ↔ ∃ q node, NodeAt schema [] q node ∧ Offence node q error) ∧
    ∀ q, schema.compile = .error (.unsupportedSchema q) →
      NodeAt schema [] q .bigint ∨ NodeAt schema [] q .any := by
  have hreports : Reports (schema.offences []) schema.compile := reports_compileInto schema [] []
  refine ⟨hreports.ok_iff.trans offences_eq_nil, fun _ => hreports.error_iff, fun _ => mem_offences,
    fun q hq => ?_⟩
  obtain ⟨_, node, hn, ho⟩ := mem_offences.mp (List.mem_of_head? (hreports.error_iff.mp hq))
  cases ho with
  | bigint => exact .inl hn
  | any => exact .inr hn

/-- An offence within the first member of a union, before its tag disagrees with that of the second,
and one behind the union; a byte buffer and an empty union. -/
theorem compile_supported_first :
    let schema := object [("u", union "t"
      [object [("n", array any), ("b", bigint), ("t", literal (.text "x"))],
        object [("t", literal (.flag true))]]), ("s", transformed string)]
    schema.offences [] = [.unsupportedSchema [], .unsupportedSchema ["u", "b"],
        .undecidableDiscriminator ["u"], .unsupportedEffect] ∧
      schema.compile = .error (.unsupportedSchema []) ∧
      (NodeAt schema [] [] .bigint ∨ NodeAt schema [] [] .any) ∧
      (object [("f", byteBuffer), ("u", union "t" [])]).Supported := by
  intro schema
  obtain ⟨-, hfirst, -, hpath⟩ := compile_supported schema
  have hoffences : schema.offences [] = [.unsupportedSchema [], .unsupportedSchema ["u", "b"],
      .undecidableDiscriminator ["u"], .unsupportedEffect] := by decide +kernel
  have herror := (hfirst (.unsupportedSchema [])).mpr (by rw [hoffences]; rfl)
  exact ⟨hoffences, herror, hpath [] herror, (compile_supported _).1.mp ⟨_, rfl⟩⟩

end Schema

end Positional
