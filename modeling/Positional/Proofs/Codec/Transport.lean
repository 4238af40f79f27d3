import Positional.Proofs.Codec.Canonical
import Positional.Proofs.Document.Transport
import Positional.Proofs.Json.Nesting
import Positional.Proofs.Program.Paired

/-!
# Writing a document from its JSON

What JSON does to a document, the kinds undo: where the document can be written, its JSON is written
as the same bytes. Tags only have to be texts, numbers or flags.
-/

namespace Positional

open Value

/-- A document and what comes back of it from JSON. -/
structure Value.Transported (a b : Value) : Prop where
  eq : b = a.toJson.toValue
  names : a.every namesOnce = true
  plain : a.every plain = true

namespace Block

/-- The tag of a discriminator is a text, a number or a flag. -/
def TakesPlainTag : Block → Prop
  | discriminator kind _ _ _ => kind ∈ [.string, .float, .int, .uint, .boolean]
  | _ => True

end Block

/-- What a kind writes for a value it writes for what comes back of it. -/
theorem Kind.encode?_transported {kind : Kind} {a : Value} (ha : a.every plain = true)
    (h : kind.encode? a = some written) : kind.encode? a.toJson.toValue = some written := by
  cases kind with
  | string | boolean => cases a <;> cases h; rfl
  | unknown => cases a <;> cases h
  | null => exact h
  | date =>
    cases a with
    | date ticks => rw [toJson, toValue_int]; exact h
    | int ticks => rw [toJson, toValue_int]; exact h
    | _ => cases h
  | float =>
    obtain ⟨x, hx, rfl⟩ := Option.map_eq_some_iff.mp h
    rw [encode?, toBinary64?_transported ha hx, Option.map_some]
  | int =>
    obtain ⟨n, hn, rfl⟩ := Option.map_eq_some_iff.mp h
    obtain ⟨m, hm, hn⟩ := Option.bind_eq_some_iff.mp hn
    rw [encode?, toInt64?, integer?_transported ha hm, Option.bind_some, hn, Option.map_some]
  | uint =>
    obtain ⟨n, hn, rfl⟩ := Option.map_eq_some_iff.mp h
    obtain ⟨m, hm, hn⟩ := Option.bind_eq_some_iff.mp hn
    rw [encode?, toUInt64?, integer?_transported ha hm, Option.bind_some, hn, Option.map_some]
  | buffer =>
    obtain ⟨content, hc, rfl⟩ := Option.map_eq_some_iff.mp h
    rw [encode?, toBytes?_transported ha hc, Option.map_some]

theorem Tag.matchesValue_of_plainKind {kind : Kind} {a : Value}
    (hk : kind ∈ [.string, .float, .int, .uint, .boolean]) (ha : a.every plain = true)
    (h : kind.encode? a = some written) (tag : Tag) :
    tag.matchesValue a = tag.matchesValue a.toJson.toValue := by
  have hinteger : ∀ {n}, a.integer? = some n →
      tag.matchesValue a = tag.matchesValue a.toJson.toValue := fun hn => by
    obtain ⟨x, hx⟩ := toBinary64?_of_integer? hn
    exact matchesValue_transported ha hx tag
  cases kind with
  | string | boolean => cases a <;> cases h; rfl
  | float =>
    obtain ⟨x, hx, -⟩ := Option.map_eq_some_iff.mp h
    exact matchesValue_transported ha hx tag
  | int =>
    obtain ⟨n, hn, -⟩ := Option.map_eq_some_iff.mp h
    obtain ⟨m, hm, -⟩ := Option.bind_eq_some_iff.mp hn
    exact hinteger hm
  | uint =>
    obtain ⟨n, hn, -⟩ := Option.map_eq_some_iff.mp h
    obtain ⟨m, hm, -⟩ := Option.bind_eq_some_iff.mp hn
    exact hinteger hm
  | _ => simp at hk

theorem pairing_transported : Pairing False Block.TakesPlainTag Transported where
  fields := by
    intro a b h name
    rw [h.eq, Json.lookup_fields_toValue, member?_toJson (names_nodup h.names), Option.map_map]
    cases hf : a.fields.lookup name with
    | none => exact .none
    | some field => exact .some ⟨rfl, every_field h.names hf, every_field h.plain hf⟩
  null h := by
    rw [h.eq]
    exact null_transported h.plain
  elements := by
    intro b items h
    refine .inl ⟨_, h.eq.trans (transported_array items), ?_⟩
    rw [List.forall₂_map_right_iff, List.forall₂_same]
    exact fun item hi => ⟨rfl, (every_array.mp h.names).2 item hi, (every_array.mp h.plain).2 item hi⟩
  encode h hw := .inl (h.eq ▸ Kind.encode?_transported h.plain hw)
  tags ht _ h ha _ := fun option _ =>
    h.eq ▸ Tag.matchesValue_of_plainKind ht h.plain ha option.1

namespace Program

/-- A document that can be written is written as the same bytes after its way through JSON. So it is
from the text of that, if the text does not nest too deep and its reader reads back every float in it. -/
theorem encode_transported {program : Program}
    (hk : ∀ block ∈ program, block.Every Block.TakesPlainTag)
    (hn : v.every namesOnce = true) (hp : v.every plain = true) (h : program.encode v = .ok written) :
    program.encode v.toJson.toValue = .ok written ∧
      ∀ reader : Json.FloatReader, (∀ x ∈ v.toJson.floats, reader.rereads x = true) →
        v.toJson.height ≤ Json.maxOpen →
        ∃ json, Json.parse? (v.toJson.pretty ++ "\n") reader = some json ∧
          program.encode json.toValue = .ok written := by
  have hsame : program.encode v.toJson.toValue = .ok written := by
    have hfollows := Pairing.follows_emitAll fun block hb =>
      pairing_transported.follows (hk block hb) ⟨rfl, hn, hp⟩
    rw [encode_ok] at h ⊢
    exact (hfollows written h).resolve_right fun hfalse => hfalse.1
  refine ⟨hsame, fun reader hr hheight => ⟨v.toJson, ?_, hsame⟩⟩
  rw [Json.parse?_pretty (Value.printable_toJson v hp) hr, if_pos hheight]

/-- The greatest float that becomes an integer is the tag, between two integer tags of which one
rounds to its neighbour; a date, bytes, numbers of other variants and a fraction stand around it. -/
theorem encode_transported_tag : ∃ (program : Program) (v : Value) (written : Bytes),
    program = [.discriminator .float [(.int 9007199254740993, []), (.int 9007199254740991,
        [.primitive .date ["at"], .array (.scalar .uint) [] ["list"]])] "k" [],
      .primitive .buffer ["raw"], .primitive .float ["x"], .primitive .float ["y"]] ∧
    v = .object [("x", .uint 3), ("raw", .bytes [0, 255]),
      ("list", .array [.float (.ofInt 7), .uint 8]), ("k", .float (.ofInt 9007199254740991)),
      ("at", .date 5), ("y", .float ⟨0x4004000000000000⟩)] ∧
    program.encode v = .ok written ∧ program.encode v.toJson.toValue = .ok written ∧
    ∃ json, Json.parse? (v.toJson.pretty ++ "\n") = some json ∧ program.encode json.toValue = .ok written := by
  have hk : ∀ block ∈ ([.discriminator .float [(.int 9007199254740993, []), (.int 9007199254740991,
        [.primitive .date ["at"], .array (.scalar .uint) [] ["list"]])] "k" [],
      .primitive .buffer ["raw"], .primitive .float ["x"], .primitive .float ["y"]] : Program),
      block.Every Block.TakesPlainTag := by
    simp only [List.forall_mem_cons]
    refine ⟨.discriminator (by simp [Block.TakesPlainTag]) ?_, .primitive trivial, .primitive trivial,
      .primitive trivial, by simp⟩
    simp only [List.forall_mem_cons]
    exact ⟨by simp, ⟨.primitive trivial, .array trivial (by simp), by simp⟩, by simp⟩
  have h : Program.encode [.discriminator .float [(.int 9007199254740993, []),
        (.int 9007199254740991,
          [.primitive .date ["at"], .array (.scalar .uint) [] ["list"]])] "k" [],
      .primitive .buffer ["raw"], .primitive .float ["x"], .primitive .float ["y"]]
      (.object [("x", .uint 3), ("raw", .bytes [0, 255]),
        ("list", .array [.float (.ofInt 7), .uint 8]), ("k", .float (.ofInt 9007199254740991)),
        ("at", .date 5), ("y", .float ⟨0x4004000000000000⟩)])
      = .ok [255, 255, 255, 255, 255, 255, 63, 67, 5, 0, 0, 0, 0, 0, 0, 0, 2, 7, 8, 2, 0, 255,
          0, 0, 0, 0, 0, 0, 8, 64, 0, 0, 0, 0, 0, 0, 4, 64] := encode_ok.mpr (by decide +kernel)
  obtain ⟨hsame, htext⟩ := encode_transported hk (by decide +kernel) (by decide +kernel) h
  exact ⟨_, _, _, rfl, rfl, h, hsame, htext .scaled (by decide +kernel) (by decide +kernel)⟩

end Program

end Positional
