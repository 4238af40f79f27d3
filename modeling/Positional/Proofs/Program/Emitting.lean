import Positional.Program.Writing
import Positional.Proofs.Wire.Scalars
import Positional.Schema.Compilation

/-!
# What a block needs to write

Each form of block writes its bytes from what the document holds at the block's paths, and writing
succeeds exactly when that can be encoded. A missing leaf counts as null here: no kind but null
carries it.
-/

namespace Positional

namespace Value

def held (x : Value) (path : Path) : Value := (x.lookup path).getD .null

def items : Value → List Value
  | .array items => items
  | _ => []

def tagAt (x : Value) (path : Path) (field : String) : Value :=
  if Block.tellsPresence field then .uint (presenceTag (x.lookup path))
  else x.held (path.child field)

@[simp] theorem items_array (items : List Value) : (array items).items = items := rfl

theorem held_of_lookup {x : Value} (h : x.lookup p = some v) : x.held p = v := by simp [held, h]

theorem held_congr {x y : Value} (h : x.lookup p = y.lookup p) : x.held p = y.held p := by
  rw [held, held, h]

theorem tagAt_presence (x : Value) (path : Path) :
    x.tagAt path "" = .uint (presenceTag (x.lookup path)) := rfl

theorem tellsPresence_of_ne (h : field ≠ "") : Block.tellsPresence field = false := by
  simpa [Block.tellsPresence] using h

theorem tagAt_field (x : Value) (path : Path) (h : field ≠ "") :
    x.tagAt path field = x.held (path.child field) := by
  simp [tagAt, tellsPresence_of_ne h]

end Value

theorem presenceTag_present (h : v ≠ .null) : presenceTag (some v) = 1 := by
  cases v <;> first | rfl | exact absurd rfl h

theorem slot_cases (slot : Option Value) :
    slot = none ∨ slot = some .null ∨ ∃ v, slot = some v ∧ v ≠ .null := by
  rcases slot with _ | v
  · exact .inl rfl
  · by_cases h : v = .null
    · exact .inr (.inl (h ▸ rfl))
    · exact .inr (.inr ⟨v, rfl, h⟩)

namespace Kind

def own (kind : Kind) (value : Value) : Value := (kind.canonical? value).getD .null

theorem canonical?_own {kind : Kind} (h : kind.encode? value = some written) :
    kind.canonical? value = some (kind.own value) := by
  rw [encode?_eq, Option.bind_eq_some_iff] at h
  obtain ⟨a, ha, -⟩ := h
  rw [own, ha, Option.getD_some]

theorem encode?_own {kind : Kind} (h : kind.encode? value = some written) :
    kind.encode? (kind.own value) = some written := by
  have hc := canonical?_own h
  rwa [encode?_eq, hc, Option.bind_some] at h

theorem check_of_encode? {kind : Kind} (h : kind.encode? value = some written) :
    kind.check = .ok () := by
  cases kind with
  | unknown name => cases value <;> cases h
  | _ => rfl

/-- Nothing but null carries a missing value. -/
theorem null_of_encode?_null {kind : Kind} (h : kind.encode? .null = some written) :
    kind = .null := by
  cases kind <;> first | rfl | cases h

theorem canonical?_ne_null {kind : Kind} (hk : kind ≠ .null) (h : kind.canonical? value = some v) :
    v ≠ .null := by
  rintro rfl
  have hn := canonical?_canonical h
  cases kind <;> first | exact hk rfl | cases hn

end Kind

namespace Emission

@[simp] theorem empty_eq_ofBytes : empty = ofBytes written ↔ written = [] := by
  simp [empty, eq_comm]

theorem concat_cons_eq_ofBytes {first : Emission} {rest : List Emission} {written : Bytes} :
    concat (first :: rest) = .ofBytes written ↔
      ∃ a b, first = .ofBytes a ∧ concat rest = .ofBytes b ∧ written = a ++ b :=
  append_eq_ofBytes

theorem concat_mapIdx_congr {f : Nat → α → Emission} {g : α → Emission} {items : List α}
    (h : ∀ i item written, f i item = .ofBytes written ↔ g item = .ofBytes written) :
    concat (items.mapIdx f) = .ofBytes written ↔ concat (items.map g) = .ofBytes written := by
  induction items generalizing f written with
  | nil => rfl
  | cons item items ih =>
    rw [List.mapIdx_cons, List.map_cons, concat_cons_eq_ofBytes, concat_cons_eq_ofBytes]
    simp only [h, ih fun i => h (i + 1)]

end Emission

namespace Block

variable {path : Path} {x : Value}

-- ---------------------------------------------------------------------------
-- One block
-- ---------------------------------------------------------------------------

theorem emit_primitive_ok : (primitive kind path).emit x = .ofBytes written ↔
    kind.encode? (x.held path) = some written := by
  cases hl : x.lookup path with
  | none =>
    have hnull : kind.encode? .null = some written → kind = .null := Kind.null_of_encode?_null
    rw [Value.held, hl, Option.getD_none]
    cases kind with
    | null => simp [emit, Emission.empty, Kind.encode?]
    | unknown name => simp [emit, Kind.encode?]
    | _ =>
      simp only [emit, Value.require, hl]
      exact ⟨fun h => absurd h (by simp), fun h => absurd (hnull h) (by simp)⟩
  | some value =>
    rw [Value.held_of_lookup hl]
    cases kind with
    | null => simp [emit, Emission.empty, Kind.encode?]
    | unknown name => simp [emit, Kind.encode?]
    | _ => simp only [emit, Value.require, hl, Kind.emit_eq_ofBytes]

theorem emit_array_ok {inner : Program} : (array element inner path).emit x = .ofBytes written ↔
    element.check = .ok () ∧ ∃ items tail, x.lookup path = some (.array items) ∧
      written = Wire.varint items.length ++ tail ∧
      (match element with
        | .object => .concat (items.map fun item => emitAll inner item)
        | .scalar kind => emitElements kind path items) = Emission.ofBytes tail := by
  rw [emit]
  have hitems : ∀ items, x.requireArray path = .ok items ↔ x.lookup path = some (.array items) := by
    intro items
    rw [Value.requireArray, Value.require]
    cases x.lookup path with
    | none => simp
    | some value => cases value <;> simp
  cases hc : element.check with
  | error error => simp
  | ok =>
    cases ha : x.requireArray path with
    | error error =>
      refine ⟨fun h => absurd h (by simp), ?_⟩
      rintro ⟨-, items, -, hl, -, -⟩
      cases ha.symm.trans ((hitems items).mpr hl)
    | ok items =>
      have hl := (hitems items).mp ha
      simp only [Emission.append_eq_ofBytes, Emission.ofBytes_inj, hl, true_and]
      constructor
      · rintro ⟨head, tail, rfl, htail, rfl⟩
        exact ⟨items, tail, rfl, rfl, htail⟩
      · rintro ⟨_, tail, ⟨rfl⟩, rfl, htail⟩
        exact ⟨_, tail, rfl, htail, rfl⟩

theorem emit_discriminator_ok : (discriminator kind options field path).emit x = .ofBytes written ↔
    (tellsPresence field = false → x.lookup (path.child field) ≠ none) ∧
    ∃ head tail, kind.encode? (x.tagAt path field) = some head ∧
      emitOption options (x.tagAt path field) x = .ofBytes tail ∧ written = head ++ tail := by
  rw [emit]
  cases hk : kind.check with
  | error error =>
    refine ⟨fun h => absurd h (by simp), ?_⟩
    rintro ⟨-, head, tail, henc, -, -⟩
    cases hk.symm.trans (Kind.check_of_encode? henc)
  | ok =>
    cases hf : tellsPresence field with
    | true =>
      simp [Value.discriminatorTag, Value.tagAt, hf, Emission.append_eq_ofBytes,
        Kind.emit_eq_ofBytes]
    | false =>
      cases hl : x.lookup (path.child field) with
      | none => simp [Value.discriminatorTag, Value.require, Except.map, hf, hl]
      | some tag =>
        simp [Value.discriminatorTag, Value.require, Except.map, Value.tagAt, Value.held, hf, hl,
          Emission.append_eq_ofBytes, Kind.emit_eq_ofBytes]

theorem emitAll_cons_ok : emitAll (block :: rest) x = .ofBytes written ↔
    ∃ a b, block.emit x = .ofBytes a ∧ emitAll rest x = .ofBytes b ∧ written = a ++ b :=
  Emission.append_eq_ofBytes

theorem emitAll_singleton (block : Block) (x : Value) : emitAll [block] x = block.emit x := by
  rw [emitAll, emitAll, Emission.append_empty]

theorem emitAll_succeeds : (∃ written, emitAll blocks x = .ofBytes written) ↔
    ∀ block ∈ blocks, ∃ written, block.emit x = .ofBytes written := by
  induction blocks with
  | nil => simp [emitAll]
  | cons block rest ih =>
    rw [List.forall_mem_cons, ← ih]
    constructor
    · rintro ⟨_, h⟩
      obtain ⟨a, b, ha, hb, rfl⟩ := emitAll_cons_ok.mp h
      exact ⟨⟨a, ha⟩, b, hb⟩
    · rintro ⟨⟨a, ha⟩, b, hb⟩
      exact ⟨a ++ b, emitAll_cons_ok.mpr ⟨a, b, ha, hb, rfl⟩⟩

/-- A slot writes its state, and what it wraps only when it is present. -/
theorem emit_ofSlot : (ofSlot wrapped path).emit x =
    .ofBytes (Wire.varint (presenceTag (x.lookup path)).toNat) ++
      emitOption [(.int 0, []), (.int 1, wrapped), (.int 2, [primitive .null path])]
        (.uint (presenceTag (x.lookup path))) x := by
  have huint : ∀ n, Kind.uint.emit path (.uint n) = .ofBytes (Wire.varint n.toNat) := by
    intro n
    rw [Kind.emit_eq_ofBytes, Kind.encode?, Value.toUInt64?_uint, Option.map_some]
  have hkind : Kind.uint.check = .ok () := rfl
  have htag : x.discriminatorTag path "" = .ok (.uint (presenceTag (x.lookup path)), path) := rfl
  simp only [ofSlot, emit, hkind, htag, huint]

theorem emit_ofSlot_absent (h : x.lookup path = none) :
    (ofSlot wrapped path).emit x = .ofBytes (Wire.varint 0) := by
  have hzero : (presenceTag none).toNat = 0 := rfl
  rw [emit_ofSlot, h, hzero]
  exact Emission.append_empty _

theorem emit_ofSlot_null (h : x.lookup path = some .null) :
    (ofSlot wrapped path).emit x = .ofBytes (Wire.varint 2) := by
  have htwo : (presenceTag (some .null)).toNat = 2 := rfl
  rw [emit_ofSlot, h, htwo]
  exact Emission.append_empty _

theorem emit_ofSlot_present (h : x.lookup path = some v) (hv : v ≠ .null) :
    (ofSlot wrapped path).emit x = .ofBytes (Wire.varint 1) ++ emitAll wrapped x := by
  have hone : (1 : UInt64).toNat = 1 := rfl
  rw [emit_ofSlot, h, presenceTag_present hv, hone]
  rfl

-- ---------------------------------------------------------------------------
-- Options
-- ---------------------------------------------------------------------------

def body (options : List (Tag × Program)) (tag : Value) : Program :=
  (select options tag).getD []

theorem emitOption_eq_body (options : List (Tag × Program)) (tag data : Value) :
    emitOption options tag data = emitAll (body options tag) data := by
  rw [emitOption_eq, body]
  cases select options tag <;> rfl

-- ---------------------------------------------------------------------------
-- Elements of a flat array
-- ---------------------------------------------------------------------------

theorem flagsOf_ok : flagsOf path index items = .ok flags ↔ items = flags.map .bool := by
  induction items generalizing index flags with
  | nil => cases flags <;> simp [flagsOf]
  | cons item items ih =>
    cases item with
    | bool flag =>
      rw [flagsOf]
      cases flags with
      | nil =>
        cases hr : flagsOf path (index + 1) items <;> simp [Except.map]
      | cons first rest =>
        cases hr : flagsOf path (index + 1) items with
        | error error =>
          have hno : items ≠ rest.map .bool := fun h => by simp [ih.mpr h] at hr
          simp [Except.map, hno]
        | ok found =>
          have hfound := ih.mp hr
          subst hfound
          have hinj : Function.Injective Value.bool := fun _ _ h => Value.bool.inj h
          simp [Except.map, List.map_inj_right fun _ _ h => hinj h]
    | _ => cases flags <;> simp [flagsOf]

theorem emitElements_boolean_ok : emitElements .boolean path items = .ofBytes written ↔
    ∃ flags, items = flags.map .bool ∧ written = Wire.lengthPrefixed (Wire.packBits flags) := by
  rw [emitElements]
  constructor
  · intro h
    cases hf : flagsOf path 0 items with
    | error error => simp [hf, Except.map, Emission.ofExcept] at h
    | ok flags =>
      simp only [hf, Except.map, Emission.ofExcept, Emission.ofBytes_inj] at h
      exact ⟨flags, flagsOf_ok.mp hf, h.symm⟩
  · rintro ⟨flags, hf, rfl⟩
    rw [flagsOf_ok.mpr hf]
    rfl

theorem emitElements_ok (h : kind ≠ .boolean) : emitElements kind path items = .ofBytes written ↔
    .concat (items.map (kind.emit [])) = Emission.ofBytes written := by
  have hmap : .concat (items.mapIdx fun index item => kind.emit (path.child (toString index)) item)
      = Emission.ofBytes written ↔ .concat (items.map (kind.emit [])) = Emission.ofBytes written :=
    Emission.concat_mapIdx_congr fun _ _ _ => Kind.emit_eq_ofBytes.trans Kind.emit_eq_ofBytes.symm
  cases kind with
  | boolean => exact absurd rfl h
  | _ => exact hmap

end Block

end Positional
