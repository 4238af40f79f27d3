import Positional.Proofs.Codec.Canonical
import Positional.Proofs.Document.Alike
import Positional.Proofs.Program.Paired

/-!
# Content decides the bytes

A program of a schema writes the same bytes for documents of the same content, whichever variants
their numbers have, in whatever order their fields stand and however their bytes are held: each kind
writes a canonical form, and a union's kind settles its tags.
-/

namespace Positional

open Value

theorem Kind.canonical?_alike {kind : Kind} {a b : Value} (h : Alike a b)
    (ha : kind.canonical? a = some first) (hb : kind.canonical? b = some second) : first = second := by
  have hsame := h.same
  cases kind with
  | string =>
    cases a <;> cases ha
    cases b <;> cases hb
    rw [beq_iff_eq.mp hsame]
  | boolean =>
    cases a <;> cases ha
    cases b <;> cases hb
    rw [beq_iff_eq.mp hsame]
  | date =>
    cases a <;> cases ha <;> cases b <;> cases hb
    · have heq := integer?_of_same (a := .int _) (b := .int _) hsame rfl rfl
      rw [Int64.toInt_inj.mp heq]
    · rw [beq_iff_eq.mp hsame]
    · rw [beq_iff_eq.mp hsame]
    · rw [beq_iff_eq.mp hsame]
  | float =>
    obtain ⟨x, hx, rfl⟩ := Option.map_eq_some_iff.mp ha
    obtain ⟨y, hy, rfl⟩ := Option.map_eq_some_iff.mp hb
    rw [h.toBinary64? hx hy]
  | int =>
    obtain ⟨m, hm, rfl⟩ := Option.map_eq_some_iff.mp ha
    obtain ⟨n, hn, rfl⟩ := Option.map_eq_some_iff.mp hb
    rw [bind_integer?_of_same hsame hm hn]
  | uint =>
    obtain ⟨m, hm, rfl⟩ := Option.map_eq_some_iff.mp ha
    obtain ⟨n, hn, rfl⟩ := Option.map_eq_some_iff.mp hb
    rw [bind_integer?_of_same hsame hm hn]
  | buffer =>
    obtain ⟨c, hc, rfl⟩ := Option.map_eq_some_iff.mp ha
    obtain ⟨d, hd, rfl⟩ := Option.map_eq_some_iff.mp hb
    rw [toBytes?_of_same hsame hc hd]
  | null => exact Option.some.inj (ha.symm.trans hb)
  | unknown name => cases a <;> cases ha

namespace Block

/-- Unless it tells presence, the kind of a discriminator settles the tags of its options. -/
def Settled : Block → Prop
  | discriminator kind options field _ =>
    tellsPresence field = false → ∀ option ∈ options, kind.Settles option.1
  | _ => True

end Block

theorem pairing_alike : Pairing True Block.Settled Alike where
  fields := Alike.fields
  null h := null_of_same h.same
  elements {b items} h := by
    cases b with
    | array others => exact .inl ⟨others, rfl, h.elements⟩
    | _ => exact .inr ⟨trivial, by simp⟩
  encode {a b written kind} h hw := by
    rw [Kind.encode?_eq] at hw
    obtain ⟨first, ha, hw⟩ := Option.bind_eq_some_iff.mp hw
    rw [Kind.encode?_eq]
    cases hb : kind.canonical? b with
    | none => exact .inr ⟨trivial, rfl⟩
    | some second =>
      rw [← Kind.canonical?_alike h ha hb]
      exact .inl hw
  tags ht hf h ha hb := by
    intro option ho
    have hsettles := ht hf option ho
    have hc := Kind.canonical?_own ha
    have hd := Kind.canonical?_own hb
    rw [← hsettles _ _ hc, ← hsettles _ _ hd, Kind.canonical?_alike h hc hd]

theorem passes_settled : Compiled.Passes (fun _ _ => True) Block.Settled where
  primitive _ := trivial
  array {path inner} _ := by
    unfold Block.ofElement
    split <;> trivial
  slot _ _ _ hf := by cases hf
  union _ h := by
    obtain ⟨parts, tagClass, rfl, -, ht, hclass, rfl⟩ := h.union_block
    exact fun _ _ ho => MemberFrame.settles_coerced ht hclass ho

namespace Schema

/-- Documents of the same content that can be written are written as the same bytes. -/
theorem encode_same {schema : Schema} (hc : schema.compile = .ok program)
    (ha : a.every namesOnce = true) (hb : b.every namesOnce = true)
    (hza : a.every notNegativeZero = true) (hzb : b.every notNegativeZero = true)
    (h : a.same b = true) (hea : program.encode a = .ok first) (heb : program.encode b = .ok second) :
    first = second := by
  obtain ⟨frame, hf, rfl⟩ := compile_ok hc
  have hsettled := hf.every ⟨fun _ _ _ => trivial, fun _ _ _ => trivial, fun _ => trivial,
    fun _ _ => trivial, fun _ _ => trivial⟩ passes_settled trivial
  have hfollows := Pairing.follows_emitAll fun block hblock =>
    pairing_alike.follows (hsettled block hblock) ⟨h, ha, hb, hza, hzb⟩
  rw [Program.encode_ok] at hea heb
  rcases hfollows first hea with hsame | ⟨-, hfail⟩
  · exact Emission.ofBytes_inj.mp (hsame.symm.trans heb)
  · exact absurd heb (hfail second)

/-- Fields in another order, a tag that is an integer here and a float there, a date as its ticks,
and bytes as an array of numbers. -/
theorem encode_same_shape : ∃ program first second,
    (object [("at", date), ("raw", byteBuffer), ("shape", optional (union "k"
      [object [("k", literal (.number (.ofInt 1))), ("r", number [])]]))]).compile = .ok program ∧
    program.encode (.object [("at", .date 7), ("raw", .bytes [1, 2]),
      ("shape", .object [("k", .int 1), ("r", .float (.ofInt 5))])]) = .ok first ∧
    program.encode (.object [("shape", .object [("r", .uint 5), ("k", .float (.ofInt 1))]),
      ("raw", .array [.float (.ofInt 1), .int 2]), ("at", .int 7)]) = .ok second ∧
    first = second := by
  have hm : compileMembers "k" ["shape"]
      [object [("k", literal (.number (.ofInt 1))), ("r", number [])]]
      = .ok [(.float (.ofInt 1), [.primitive .float ["shape", "r"]])] := rfl
  have hu : TagClass.unify? [(Tag.float (.ofInt 1)).tagClass] = some .int := by decide +kernel
  have hslot : (optional (union "k" [object [("k", literal (.number (.ofInt 1))),
      ("r", number [])]])).compileInto ["shape"] [.primitive .date ["at"], .primitive .buffer ["raw"]]
      = .ok [.primitive .date ["at"], .primitive .buffer ["raw"], .ofSlot [.discriminator .int
        [((Tag.float (.ofInt 1)).coerce .int, [.primitive .float ["shape", "r"]])] "k" ["shape"]]
        ["shape"]] := by
    rw [compileInto, compileInto_union hm hu []]
    rfl
  have hc : (object [("at", date), ("raw", byteBuffer), ("shape", optional (union "k"
      [object [("k", literal (.number (.ofInt 1))), ("r", number [])]]))]).compile = .ok _ :=
    bind_ok.mpr ⟨_, rfl, bind_ok.mpr ⟨_, rfl, bind_ok.mpr ⟨_, hslot, rfl⟩⟩⟩
  have hfirst : Program.encode [.primitive .date ["at"], .primitive .buffer ["raw"], .ofSlot
      [.discriminator .int [((Tag.float (.ofInt 1)).coerce .int, [.primitive .float ["shape", "r"]])]
        "k" ["shape"]] ["shape"]] (.object [("at", .date 7), ("raw", .bytes [1, 2]),
        ("shape", .object [("k", .int 1), ("r", .float (.ofInt 5))])])
      = .ok [7, 0, 0, 0, 0, 0, 0, 0, 2, 1, 2, 1, 2, 0, 0, 0, 0, 0, 0, 20, 64] :=
    Program.encode_ok.mpr (by decide +kernel)
  have hsecond : Program.encode [.primitive .date ["at"], .primitive .buffer ["raw"], .ofSlot
      [.discriminator .int [((Tag.float (.ofInt 1)).coerce .int, [.primitive .float ["shape", "r"]])]
        "k" ["shape"]] ["shape"]]
      (.object [("shape", .object [("r", .uint 5), ("k", .float (.ofInt 1))]),
        ("raw", .array [.float (.ofInt 1), .int 2]), ("at", .int 7)])
      = .ok [7, 0, 0, 0, 0, 0, 0, 0, 2, 1, 2, 1, 2, 0, 0, 0, 0, 0, 0, 20, 64] :=
    Program.encode_ok.mpr (by decide +kernel)
  exact ⟨_, _, _, hc, hfirst, hsecond, encode_same hc (by decide +kernel) (by decide +kernel)
    (by decide +kernel) (by decide +kernel) (by decide +kernel) hfirst hsecond⟩

end Schema

end Positional
