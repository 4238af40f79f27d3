import Positional.Program.Interchange
import Positional.Proofs.Json.Reading
import Positional.Proofs.Program.Every

/-!
# Programs as text and back

A program whose kinds stand under their own names and whose tags can be said exactly is the program
of its own text, in both forms (`Program.parse?_compact`, `Program.parse?_pretty`), unless the text
nests too deep or holds a float that its reader does not read back. Every program that was read is
such a program (`Program.readable_of_parse?`).
-/

namespace Positional

-- ---------------------------------------------------------------------------
-- Names and tags
-- ---------------------------------------------------------------------------

theorem Kind.name_ofName (name : String) : (Kind.ofName name).name = name := by
  unfold Kind.ofName
  split <;> rfl

theorem Element.name_ofName (name : String) : (Element.ofName name).name = name := by
  unfold Element.ofName
  split
  · rename_i h
    exact (beq_iff_eq.mp h).symm
  · exact Kind.name_ofName name

namespace Tag

def printable : Tag → Bool
  | float x => x.isFinite
  | _ => true

theorem printable_toJson {tag : Tag} (h : tag.printable = true) : tag.toJson.printable = true := by
  cases tag with
  | int n => exact Json.fits64_toInt n
  | float x =>
    have hx : x.isFinite = true := h
    rwa [toJson, Json.ofBinary64, if_pos hx]
  | _ => rfl

theorem ofJson?_toJson {tag : Tag} (h : tag.printable = true) : ofJson? tag.toJson = some tag := by
  cases tag with
  | int n => rw [toJson, ofJson?, int64?_eq_some.mpr rfl]
  | float x =>
    have hx : x.isFinite = true := h
    rw [toJson, Json.ofBinary64, if_pos hx, ofJson?]
  | _ => rfl

theorem printable_of_ofJson? {json : Json} (hj : json.printable = true)
    (h : ofJson? json = some tag) : tag.printable = true := by
  unfold ofJson? at h
  split at h
  · cases h; rfl
  · split at h
    · cases h; rfl
    · cases h
      exact Binary64.isFinite_ofInt (Json.natAbs_lt_of_fits64 hj)
  · cases h
    exact hj
  · cases h; rfl
  · cases h

end Tag

theorem Path.strings?_toJson (path : Path) : path.toJson.strings? = some path := by
  rw [Path.toJson, Json.strings?]
  induction path with
  | nil => rfl
  | cons name path ih => simp [Json.string?, ih]

theorem Path.printable_toJson (path : Path) : path.toJson.printable = true := by
  rw [Path.toJson, Json.printable, Json.printableItems_iff]
  simp [Json.printable]

namespace Block

/-- The names and tags of a block are what is read from their text. -/
def Readable : Block → Prop
  | primitive kind _ => Kind.ofName kind.name = kind
  | array element _ _ => Element.ofName element.name = element
  | discriminator kind options _ _ =>
    Kind.ofName kind.name = kind ∧ ∀ option ∈ options, option.1.printable = true

-- ---------------------------------------------------------------------------
-- Writing
-- ---------------------------------------------------------------------------

section

variable {blocks inner : Program} {options : List (Tag × Program)} {block : Block}

theorem blocksOfJson?_toJsonAll (nested : Bool)
    (h : ∀ block ∈ blocks, ∀ nested, ofJson? nested block.toJson = some block) :
    blocksOfJson? nested (toJsonAll blocks) = some blocks := by
  induction blocks with
  | nil => rfl
  | cons block rest ih =>
    obtain ⟨hblock, hrest⟩ := List.forall_mem_cons.mp h
    simp [toJsonAll, blocksOfJson?, hblock nested, ih hrest]

theorem optionListOfJson?_toJsonOptions (ht : ∀ option ∈ options, option.1.printable = true)
    (h : ∀ option ∈ options, ∀ block ∈ option.2, ∀ nested, ofJson? nested block.toJson = some block) :
    optionListOfJson? (toJsonOptions options) = some options := by
  induction options with
  | nil => rfl
  | cons option rest ih =>
    obtain ⟨tag, body⟩ := option
    obtain ⟨htag, htags⟩ := List.forall_mem_cons.mp ht
    obtain ⟨hbody, hrest⟩ := List.forall_mem_cons.mp h
    simp [toJsonOptions, optionListOfJson?, programOfJson?, Tag.ofJson?_toJson htag,
      blocksOfJson?_toJsonAll true hbody, ih htags hrest]

/-- The record of a block is read as the block, in any place. -/
theorem ofJson?_toJson (h : block.Every Readable) (nested : Bool) :
    ofJson? nested block.toJson = some block := by
  induction h generalizing nested with
  | primitive hk =>
    simp only [Readable] at hk
    simp [toJson, ofJson?, Json.field?, Json.membersNamed, single?, Json.form?, primitive?, Json.string?,
      hk, Path.strings?_toJson]
  | array he _ ih =>
    simp only [Readable] at he
    have hinner := blocksOfJson?_toJsonAll true ih
    simp [toJson, ofJson?, Json.field?, Json.membersNamed, single?, Json.form?, array?, Json.string?,
      innerMembers, programOfJson?, he, hinner, Path.strings?_toJson]
  | discriminator hk _ ih =>
    obtain ⟨hk, ht⟩ := hk
    have hoptions := optionListOfJson?_toJsonOptions ht ih
    simp [toJson, ofJson?, Json.field?, Json.membersNamed, single?, Json.form?, discriminator?,
      Json.string?, optionMembers, optionsOfJson?, hk, hoptions, Path.strings?_toJson]

theorem printable_toJsonAll (h : ∀ block ∈ blocks, block.toJson.printable = true) :
    Json.printableItems (toJsonAll blocks) = true := by
  induction blocks with
  | nil => rfl
  | cons block rest ih =>
    obtain ⟨hblock, hrest⟩ := List.forall_mem_cons.mp h
    exact (Bool.and_eq_true ..).mpr ⟨hblock, ih hrest⟩

theorem printable_toJsonOptions (ht : ∀ option ∈ options, option.1.printable = true)
    (h : ∀ option ∈ options, ∀ block ∈ option.2, block.toJson.printable = true) :
    Json.printableItems (toJsonOptions options) = true := by
  induction options with
  | nil => rfl
  | cons option rest ih =>
    obtain ⟨htag, htags⟩ := List.forall_mem_cons.mp ht
    obtain ⟨hbody, hrest⟩ := List.forall_mem_cons.mp h
    simp [toJsonOptions, Json.printableItems, Json.printable, Tag.printable_toJson htag,
      printable_toJsonAll hbody, ih htags hrest]

theorem printable_toJson (h : block.Every Readable) : block.toJson.printable = true := by
  induction h with
  | primitive => simp [toJson, Json.printable, Json.printableMembers, Path.printable_toJson]
  | array _ _ ih =>
    simp [toJson, Json.printable, Json.printableMembers, Path.printable_toJson, printable_toJsonAll ih]
  | discriminator hk _ ih =>
    simp [toJson, Json.printable, Json.printableMembers, Path.printable_toJson,
      printable_toJsonOptions hk.2 ih]

end

-- ---------------------------------------------------------------------------
-- Reading
-- ---------------------------------------------------------------------------

section

variable {block : Block} {path : Option Json} {inner : Option Program}
  {held : Option (List (Tag × Program))}

theorem primitive?_ok (h : primitive? kind path = some block) :
    ∃ name path, block = .primitive (.ofName name) path := by
  obtain ⟨_, -, h⟩ := Option.bind_eq_some_iff.mp h
  obtain ⟨name, -, h⟩ := Option.bind_eq_some_iff.mp h
  obtain ⟨_, -, h⟩ := Option.bind_eq_some_iff.mp h
  obtain ⟨path, -, h⟩ := Option.bind_eq_some_iff.mp h
  exact ⟨name, path, (Option.some.inj h).symm⟩

theorem array?_ok (h : array? element inner path = some block) :
    ∃ name body path, inner = some body ∧ block = .array (.ofName name) body path := by
  obtain ⟨_, -, h⟩ := Option.bind_eq_some_iff.mp h
  obtain ⟨name, -, h⟩ := Option.bind_eq_some_iff.mp h
  obtain ⟨body, hinner, h⟩ := Option.bind_eq_some_iff.mp h
  obtain ⟨_, -, h⟩ := Option.bind_eq_some_iff.mp h
  obtain ⟨path, -, h⟩ := Option.bind_eq_some_iff.mp h
  exact ⟨name, body, path, hinner, (Option.some.inj h).symm⟩

theorem discriminator?_ok (h : discriminator? kind held field path = some block) :
    ∃ name options field path, held = some options ∧
      block = .discriminator (.ofName name) options field path := by
  obtain ⟨_, -, h⟩ := Option.bind_eq_some_iff.mp h
  obtain ⟨name, -, h⟩ := Option.bind_eq_some_iff.mp h
  obtain ⟨options, hheld, h⟩ := Option.bind_eq_some_iff.mp h
  obtain ⟨_, -, h⟩ := Option.bind_eq_some_iff.mp h
  obtain ⟨field, -, h⟩ := Option.bind_eq_some_iff.mp h
  obtain ⟨_, -, h⟩ := Option.bind_eq_some_iff.mp h
  obtain ⟨path, -, h⟩ := Option.bind_eq_some_iff.mp h
  exact ⟨name, options, field, path, hheld, (Option.some.inj h).symm⟩

def ReadableOptions (options : List (Tag × Program)) : Prop :=
  ∀ option ∈ options, option.1.printable = true ∧ ∀ block ∈ option.2, block.Every Readable

theorem readable_of_primitive? (h : primitive? kind path = some block) : block.Every Readable := by
  obtain ⟨name, path, rfl⟩ := primitive?_ok h
  exact .primitive (congrArg Kind.ofName (Kind.name_ofName name))

theorem readable_of_array? (h : array? element inner path = some block)
    (hi : ∀ body, inner = some body → ∀ block ∈ body, block.Every Readable) : block.Every Readable := by
  obtain ⟨name, body, path, hinner, rfl⟩ := array?_ok h
  exact .array (congrArg Element.ofName (Element.name_ofName name)) (hi body hinner)

theorem readable_of_discriminator? (h : discriminator? kind held field path = some block)
    (ho : ∀ options, held = some options → ReadableOptions options) : block.Every Readable := by
  obtain ⟨name, options, field, path, hheld, rfl⟩ := discriminator?_ok h
  exact .discriminator
    ⟨congrArg Kind.ofName (Kind.name_ofName name), fun option hmem => (ho options hheld option hmem).1⟩
    fun option hmem => (ho options hheld option hmem).2

end

mutual

/-- What is read from a value with exact numbers can be written and read again. -/
theorem readable_of_ofJson? {nested : Bool} {block : Block} : (json : Json) →
    json.printable = true → ofJson? nested json = some block → block.Every Readable
  | .object members, hj, h => by
    rw [ofJson?] at h
    split at h
    · exact readable_of_primitive? h
    · exact readable_of_array? h fun body hbody =>
        readable_of_innerMembers members hj body (mem_of_join hbody)
    · exact readable_of_discriminator? h fun options hoptions =>
        readable_of_optionMembers members hj options (mem_of_join hoptions)
    · cases h
  -- a record may also stand as the array of its values
  | .array [_, _, _], _, h => by
    rw [ofJson?] at h
    split at h
    · exact readable_of_primitive? h
    · cases h
  | .array [_, _, inner, _], hj, h => by
    rw [ofJson?] at h
    have hinner := (Json.printableItems_iff.mp hj) inner (by simp)
    split at h
    · exact readable_of_array? h fun _ => readable_of_programOfJson? inner hinner
    · cases h
  | .array [_, _, options, _, _], hj, h => by
    rw [ofJson?] at h
    have hoptions := (Json.printableItems_iff.mp hj) options (by simp)
    split at h
    · exact readable_of_discriminator? h fun _ => readable_of_optionsOfJson? options hoptions
    · cases h
  | .array [], _, h | .array [_], _, h | .array [_, _], _, h
  | .array (_ :: _ :: _ :: _ :: _ :: _ :: _), _, h
  | .null, _, h | .bool _, _, h | .integer _, _, h | .float _, _, h | .string _, _, h => by
    simp [ofJson?] at h

theorem readable_of_programOfJson? {nested : Bool} {program : Program} : (json : Json) →
    json.printable = true → programOfJson? nested json = some program →
    ∀ block ∈ program, block.Every Readable
  | .array items, hj, h => by
    rw [programOfJson?] at h
    exact readable_of_blocksOfJson? items hj h
  | .null, _, h | .bool _, _, h | .integer _, _, h | .float _, _, h | .string _, _, h
  | .object _, _, h => by
    simp [programOfJson?] at h

theorem readable_of_blocksOfJson? {nested : Bool} {program : Program} : (items : List Json) →
    Json.printableItems items = true → blocksOfJson? nested items = some program →
    ∀ block ∈ program, block.Every Readable
  | [], _, h => by
    cases h
    exact fun _ hb => absurd hb List.not_mem_nil
  | item :: rest, hj, h => by
    obtain ⟨hitem, hrest⟩ := (Bool.and_eq_true ..).mp hj
    obtain ⟨block, hblock, h⟩ := Option.bind_eq_some_iff.mp h
    obtain ⟨others, hothers, h⟩ := Option.bind_eq_some_iff.mp h
    cases h
    exact List.forall_mem_cons.mpr
      ⟨readable_of_ofJson? item hitem hblock, readable_of_blocksOfJson? rest hrest hothers⟩

theorem readable_of_optionsOfJson? {options : List (Tag × Program)} : (json : Json) →
    json.printable = true → optionsOfJson? json = some options → ReadableOptions options
  | .array items, hj, h => by
    rw [optionsOfJson?] at h
    exact readable_of_optionListOfJson? items hj h
  | .null, _, h | .bool _, _, h | .integer _, _, h | .float _, _, h | .string _, _, h
  | .object _, _, h => by
    simp [optionsOfJson?] at h

theorem readable_of_optionListOfJson? {options : List (Tag × Program)} : (items : List Json) →
    Json.printableItems items = true → optionListOfJson? items = some options →
    ReadableOptions options
  | [], _, h => by
    cases h
    exact fun _ ho => absurd ho List.not_mem_nil
  | .array [tag, body] :: rest, hj, h => by
    obtain ⟨hpair, hrest⟩ := (Bool.and_eq_true ..).mp hj
    obtain ⟨own, htag, h⟩ := Option.bind_eq_some_iff.mp h
    obtain ⟨program, hprogram, h⟩ := Option.bind_eq_some_iff.mp h
    obtain ⟨others, hothers, h⟩ := Option.bind_eq_some_iff.mp h
    cases h
    have hitems := Json.printableItems_iff.mp hpair
    exact List.forall_mem_cons.mpr
      ⟨⟨Tag.printable_of_ofJson? (hitems tag (by simp)) htag,
        readable_of_programOfJson? body (hitems body (by simp)) hprogram⟩,
        readable_of_optionListOfJson? rest hrest hothers⟩
  | .array [] :: _, _, h | .array [_] :: _, _, h | .array (_ :: _ :: _ :: _) :: _, _, h
  | .null :: _, _, h | .bool _ :: _, _, h | .integer _ :: _, _, h | .float _ :: _, _, h
  | .string _ :: _, _, h | .object _ :: _, _, h => by
    simp [optionListOfJson?] at h

theorem readable_of_innerMembers : (members : List (String × Json)) →
    Json.printableMembers members = true → (program : Program) → some program ∈ innerMembers members →
    ∀ block ∈ program, block.Every Readable
  | [], _, _, h => absurd h List.not_mem_nil
  | (name, item) :: rest, hj, program, h => by
    obtain ⟨hitem, hrest⟩ := (Bool.and_eq_true ..).mp hj
    rw [innerMembers] at h
    split at h
    · rcases List.mem_cons.mp h with hread | h
      · exact readable_of_programOfJson? item hitem hread.symm
      · exact readable_of_innerMembers rest hrest program h
    · exact readable_of_innerMembers rest hrest program h

theorem readable_of_optionMembers : (members : List (String × Json)) →
    Json.printableMembers members = true → (options : List (Tag × Program)) →
    some options ∈ optionMembers members → ReadableOptions options
  | [], _, _, h => absurd h List.not_mem_nil
  | (name, item) :: rest, hj, options, h => by
    obtain ⟨hitem, hrest⟩ := (Bool.and_eq_true ..).mp hj
    rw [optionMembers] at h
    split at h
    · rcases List.mem_cons.mp h with hread | h
      · exact readable_of_optionsOfJson? item hitem hread.symm
      · exact readable_of_optionMembers rest hrest options h
    · exact readable_of_optionMembers rest hrest options h

end

end Block

namespace Program

variable {program : Program} {reader : Json.FloatReader}

theorem readable_of_parse? (h : parse? text reader = some program) :
    ∀ block ∈ program, block.Every Block.Readable := by
  obtain ⟨json, hjson, h⟩ := Option.bind_eq_some_iff.mp h
  exact Block.readable_of_programOfJson? json (Json.printable_of_parse? hjson) h

theorem printable_toJson (h : ∀ block ∈ program, block.Every Block.Readable) :
    program.toJson.printable = true :=
  Block.printable_toJsonAll fun block hb => Block.printable_toJson (h block hb)

theorem programOfJson?_toJson (h : ∀ block ∈ program, block.Every Block.Readable) :
    Block.programOfJson? false program.toJson = some program :=
  Block.blocksOfJson?_toJsonAll false fun block hb => Block.ofJson?_toJson (h block hb)

section

variable (h : ∀ block ∈ program, block.Every Block.Readable)
  (hr : ∀ x ∈ program.toJson.floats, reader.rereads x = true)
include h hr

/-- The compact text of a program is read as that program, unless it nests too deep. -/
theorem parse?_compact : parse? program.print reader =
    if program.toJson.height ≤ Json.maxOpen then some program else none := by
  rw [parse?, print, Json.parse?_compact (printable_toJson h) hr]
  split
  · exact programOfJson?_toJson h
  · rfl

theorem parse?_pretty : parse? (program.toJson.pretty ++ "\n") reader =
    if program.toJson.height ≤ Json.maxOpen then some program else none := by
  rw [parse?, Json.parse?_pretty (printable_toJson h) hr]
  split
  · exact programOfJson?_toJson h
  · rfl

end

end Program

end Positional
