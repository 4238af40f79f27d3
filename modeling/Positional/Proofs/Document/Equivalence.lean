import Positional.Proofs.Binary64.Number
import Positional.Proofs.Wire.Coercions

/-!
# The laws of equal content

Numbers have the same content when they denote one number, whatever their variants; a conversion to
a word succeeds just when the number is one of the word's. On all documents equality of content is
symmetric. It is reflexive where there is no NaN, and transitive where there is no date: a date
equals the integer of its ticks, but not the float of the same number.
-/

namespace Positional

namespace Value

def number? : Value → Option Number
  | int n => some (.rational n.toInt)
  | uint n => some (.rational (n.toNat : Int))
  | float x => x.number?
  | _ => none

def notDate : Value → Bool
  | date _ => false
  | _ => true

/-- What holds of arrays and objects if it holds of what is in them, and of everything else, holds of
every document. -/
theorem induct {P : Value → Prop}
    (array : ∀ items, (∀ item ∈ items, P item) → P (.array items))
    (object : ∀ fields, (∀ field ∈ fields, P field.2) → P (.object fields))
    (leaf : ∀ v, (∀ items, v ≠ .array items) → (∀ fields, v ≠ .object fields) → P v) :
    (v : Value) → P v
  | .array items => array items fun item h =>
      have : sizeOf item < sizeOf items := List.sizeOf_lt_of_mem h
      induct array object leaf item
  | .object fields => object fields fun (name, value) h =>
      have : sizeOf (name, value) < sizeOf fields := List.sizeOf_lt_of_mem h
      induct array object leaf value
  | .null => leaf _ (by simp) (by simp)
  | .bool _ => leaf _ (by simp) (by simp)
  | .int _ => leaf _ (by simp) (by simp)
  | .uint _ => leaf _ (by simp) (by simp)
  | .float _ => leaf _ (by simp) (by simp)
  | .date _ => leaf _ (by simp) (by simp)
  | .bytes _ => leaf _ (by simp) (by simp)
  | .text _ => leaf _ (by simp) (by simp)
termination_by v => sizeOf v
decreasing_by
  · rw [Value.array.sizeOf_spec]
    omega
  · rw [Prod.mk.sizeOf_spec] at this
    rw [Value.object.sizeOf_spec]
    omega

-- ---------------------------------------------------------------------------
-- Numbers
-- ---------------------------------------------------------------------------

variable {a b c v : Value}

theorem integer?_eq_some_iff : v.integer? = some n ↔ v.number? = some (.rational n) := by
  cases v with
  | float x => exact Binary64.toInt?_eq_some_iff
  | uint k => simp only [integer?, number?, Option.some.injEq, Number.rational.injEq, Int.cast_inj]
  | _ => simp [integer?, number?]

theorem number?_eq_none_iff :
    v.number? = none ↔ v.toBinary64? = none ∨ ∃ x, v = .float x ∧ x.isNaN = true := by
  cases v with
  | float x =>
    have hnumber : x.isNaN = false → x.number? ≠ none → ((float x).number? = none ↔
        (float x).toBinary64? = none ∨ ∃ y, float x = .float y ∧ y.isNaN = true) := by
      intro hx h
      refine iff_of_false h ?_
      rintro (hnone | ⟨y, ⟨⟩, hy⟩)
      · cases hnone
      · cases hx.symm.trans hy
    rcases x.number?_cases with ⟨hx, h⟩ | ⟨hx, h⟩ | ⟨hx, h⟩
    · exact iff_of_true h (.inr ⟨x, rfl, hx⟩)
    · exact hnumber (Binary64.isNaN_of_le hx.le) (h ▸ Option.some_ne_none _)
    · exact hnumber (Binary64.isNaN_of_le hx.le) (h ▸ Option.some_ne_none _)
  | _ => simp [number?, toBinary64?]

theorem toInt64?_eq_some_iff : v.toInt64? = some n ↔ v.number? = some (.rational n.toInt) := by
  rw [← integer?_eq_some_iff, toInt64?, Option.bind_eq_some_iff]
  simp only [int64?_eq_some]
  constructor
  · rintro ⟨m, hm, rfl⟩
    exact hm
  · exact fun h => ⟨_, h, rfl⟩

theorem toUInt64?_eq_some_iff :
    v.toUInt64? = some n ↔ v.number? = some (.rational (n.toNat : Int)) := by
  rw [← integer?_eq_some_iff, toUInt64?, Option.bind_eq_some_iff]
  simp only [uint64?_eq_some]
  constructor
  · rintro ⟨m, hm, rfl⟩
    exact hm
  · exact fun h => ⟨_, h, rfl⟩

theorem toByte?_eq_some_iff :
    v.toByte? = some byte ↔ v.number? = some (.rational (byte.toNat : Int)) := by
  rw [← integer?_eq_some_iff, toByte?]
  have hbyte := byte.toNat_lt
  have hsize : UInt8.size = 256 := rfl
  split
  · rename_i n hn
    rw [hn]
    by_cases h : 0 ≤ n ∧ n < 256
    · have hback : (UInt8.ofNat n.toNat).toNat = n.toNat := UInt8.toNat_ofNat_of_lt' (by omega)
      rw [if_pos (by simp [h]), Option.some.injEq, Option.some.injEq, ← UInt8.toNat_inj, hback]
      omega
    · rw [if_neg (by simpa using h)]
      simp only [reduceCtorEq, Option.some.injEq, false_iff]
      omega
  · rename_i hn
    simp [hn]

theorem integer?_of_number? (hn : v.number? = some m) (hf : ∀ x, v ≠ .float x) :
    ∃ n, v.integer? = some n ∧ m = .rational n := by
  cases v with
  | int n => exact ⟨_, rfl, (Option.some.inj hn).symm⟩
  | uint n => exact ⟨_, rfl, (Option.some.inj hn).symm⟩
  | float x => exact absurd rfl (hf x)
  | _ => cases hn

theorem same_eq_integer? (ha : a.number? = some m) (hb : b.notDate = true)
    (hf : (∀ x, a ≠ .float x) ∨ ∀ x, b ≠ .float x) :
    a.same b = (a.integer?.isSome && a.integer? == b.integer?) := by
  cases a with
  | int n =>
    cases b with
    | date t => cases hb
    | _ => rfl
  | uint n => cases b <;> rfl
  | float x =>
    cases b with
    | float y => simp at hf
    | _ => rfl
  | _ => cases ha

/-- What has the content of a number denotes it, unless it is a date. -/
theorem same_iff_number? (ha : a.number? = some m) (hb : b.notDate = true) :
    a.same b = true ↔ b.number? = some m := by
  by_cases hf : (∀ x, a ≠ .float x) ∨ ∀ x, b ≠ .float x
  · rw [same_eq_integer? ha hb hf, Bool.and_eq_true, beq_iff_eq, Option.isSome_iff_exists]
    constructor
    · rintro ⟨⟨n, hn⟩, heq⟩
      rw [← ha, integer?_eq_some_iff.mp hn, integer?_eq_some_iff.mp (heq ▸ hn)]
    · intro hbm
      obtain ⟨n, hn, rfl⟩ : ∃ n : Int, (a.integer? = some n ∨ b.integer? = some n) ∧ m = .rational n := by
        rcases hf with hf | hf
        · obtain ⟨n, hn, hm⟩ := integer?_of_number? ha hf
          exact ⟨n, .inl hn, hm⟩
        · obtain ⟨n, hn, hm⟩ := integer?_of_number? hbm hf
          exact ⟨n, .inr hn, hm⟩
      rw [integer?_eq_some_iff.mpr ha, integer?_eq_some_iff.mpr hbm]
      exact ⟨⟨n, rfl⟩, rfl⟩
  · push Not at hf
    obtain ⟨⟨x, rfl⟩, y, rfl⟩ := hf
    rw [number?] at ha
    refine Binary64.equals_iff_number?.trans ?_
    simp [ha, number?]

theorem notDate_of_number? (h : v.number? = some m) : v.notDate = true := by
  cases v with
  | date t => cases h
  | _ => rfl

theorem same_of_isNaN (h : x.isNaN = true) (b : Value) : (float x).same b = false := by
  have hnone : x.toInt? = none :=
    Option.eq_none_iff_forall_ne_some.mpr fun n hn => by simp [Binary64.isNaN_of_toInt? hn] at h
  cases b with
  | float y => simp [same, sameScalar, Binary64.equals, h]
  | _ => simp [same, sameScalar, integer?, hnone]

theorem float_cases (x : Binary64) : x.isNaN = true ∨ ∃ m, (float x).number? = some m := by
  rcases x.number?_cases with ⟨h, -⟩ | ⟨-, h⟩ | ⟨-, h⟩
  · exact .inl h
  · exact .inr ⟨_, h⟩
  · exact .inr ⟨_, h⟩

theorem number?_of_float_same (h : (float x).same b = true) :
    ∃ m, (float x).number? = some m ∧ b.number? = some m := by
  have hb : b.notDate = true := by
    cases b with
    | date t => simp [same, sameScalar, integer?, Option.isSome_iff_ne_none] at h
    | _ => rfl
  rcases float_cases x with hnan | ⟨m, hm⟩
  · rw [same_of_isNaN hnan] at h
    cases h
  · exact ⟨m, hm, (same_iff_number? hm hb).mp h⟩

theorem number?_of_same (h : a.same b = true) (ha : a.notDate = true) (hb : b.number? = some m) :
    a.number? = some m := by
  cases hn : a.number? with
  | some k => rw [← hb, (same_iff_number? hn (notDate_of_number? hb)).mp h]
  | none =>
    cases a with
    | int | uint => cases hn
    | date t => cases ha
    | float x =>
      obtain ⟨k, hk, -⟩ := number?_of_float_same h
      cases hn.symm.trans hk
    | _ =>
      cases b with
      | int | uint | float => cases h
      | _ => cases hb

-- ---------------------------------------------------------------------------
-- Bytes
-- ---------------------------------------------------------------------------

def DenotesByte (item : Value) (byte : UInt8) : Prop :=
  item.number? = some (.rational (byte.toNat : Int))

inductive Spells : Value → Bytes → Prop
  | bytes : Spells (.bytes content) content
  | array {items : List Value} (h : List.Forall₂ DenotesByte items content) :
      Spells (.array items) content

theorem map_toByte?_iff {items : List Value} :
    items.map toByte? = content.map some ↔ List.Forall₂ DenotesByte items content := by
  induction items generalizing content with
  | nil => cases content <;> simp
  | cons item items ih =>
    cases content with
    | nil => simp
    | cons byte content => simp [ih, toByte?_eq_some_iff, DenotesByte]

theorem spells_bytes_iff : (Value.bytes other).Spells content ↔ other = content := by
  constructor
  · rintro ⟨⟩
    rfl
  · rintro rfl
    exact .bytes

theorem spells_array_iff {items : List Value} :
    (Value.array items).Spells content ↔ List.Forall₂ DenotesByte items content :=
  ⟨fun | .array h => h, .array⟩

theorem bytes_same_iff : (bytes content).same b = true ↔ b.Spells content := by
  cases b with
  | bytes other =>
    have hequal : (content == other) = true ↔ content = other := beq_iff_eq
    exact hequal.trans (eq_comm.trans spells_bytes_iff.symm)
  | array items =>
    rw [spells_array_iff, ← map_toByte?_iff]
    exact show (items.map toByte? == content.map some) = true ↔ _ from beq_iff_eq
  | _ => exact iff_of_false Bool.false_ne_true nofun

theorem same_bytes_iff : a.same (bytes content) = true ↔ a.Spells content := by
  cases a with
  | bytes other =>
    rw [spells_bytes_iff]
    exact show (other == content) = true ↔ other = content from beq_iff_eq
  | array items =>
    rw [spells_array_iff, ← map_toByte?_iff]
    exact show (items.map toByte? == content.map some) = true ↔ _ from beq_iff_eq
  | float x =>
    refine iff_of_false ?_ fun h => by cases h
    simp [same, sameScalar, integer?, Option.isSome_iff_ne_none]
  | _ => exact iff_of_false Bool.false_ne_true fun h => by cases h

theorem array_same_iff {items others : List Value} : (array items).same (array others) = true ↔
    List.Forall₂ (fun a b => a.same b = true) items others := by
  refine ⟨forall₂_of_sameItems, fun h => ?_⟩
  rw [same]
  induction h with
  | nil => rfl
  | cons hab _ ih => rw [sameItems, hab, ih, Bool.and_self]

theorem forall₂_same_of_denotesByte {items others : List Value}
    (h : List.Forall₂ DenotesByte items content) (h' : List.Forall₂ DenotesByte others content) :
    List.Forall₂ (fun a b => a.same b = true) items others := by
  induction h generalizing others with
  | nil =>
    cases h'
    exact .nil
  | cons hitem _ ih =>
    cases h' with
    | cons hother hothers =>
      exact .cons ((same_iff_number? hitem (notDate_of_number? hother)).mpr hother) (ih hothers)

theorem object_same_iff : (object xs).same (object ys) = true ↔ xs.length = ys.length ∧
    ∀ field ∈ xs, ∃ b, ys.lookup field.1 = some b ∧ field.2.same b = true := by
  rw [same, Bool.and_eq_true, beq_iff_eq, sameFields_iff]

theorem bool_same_iff : (bool flag).same b = true ↔ b = bool flag := by
  cases b with
  | bool other =>
    have hequal : (flag == other) = true ↔ flag = other := beq_iff_eq
    exact hequal.trans (by simp [eq_comm])
  | _ => exact iff_of_false Bool.false_ne_true nofun

theorem text_same_iff : (text content).same b = true ↔ b = text content := by
  cases b with
  | text other =>
    have hequal : (content == other) = true ↔ content = other := beq_iff_eq
    exact hequal.trans (by simp [eq_comm])
  | _ => exact iff_of_false Bool.false_ne_true nofun

theorem Spells.same (ha : a.Spells content) (hb : b.Spells content) : a.same b = true := by
  cases ha with
  | bytes => exact bytes_same_iff.mpr hb
  | array hitems =>
    cases hb with
    | bytes => exact same_bytes_iff.mpr (.array hitems)
    | array hothers => exact array_same_iff.mpr (forall₂_same_of_denotesByte hitems hothers)

theorem Spells.unique (h : a.Spells content) (h' : a.Spells other) : content = other := by
  cases h with
  | bytes => exact spells_bytes_iff.mp h'
  | array h =>
    have heq := (map_toByte?_iff.mpr h).symm.trans (map_toByte?_iff.mpr (spells_array_iff.mp h'))
    exact (List.map_inj_right fun _ _ => Option.some.inj).mp heq

-- ---------------------------------------------------------------------------
-- Documents without dates
-- ---------------------------------------------------------------------------

/-- Documents of one content, without dates. -/
structure Dateless (a b : Value) : Prop where
  same : a.same b = true
  left : a.every notDate = true
  right : b.every notDate = true

namespace Dateless

theorem number?_iff (h : Dateless a b) : a.number? = some m ↔ b.number? = some m :=
  ⟨fun ha => (same_iff_number? ha (test_of_every h.right)).mp h.same,
    number?_of_same h.same (test_of_every h.left)⟩

theorem elements {items others : List Value} (h : Dateless (.array items) (.array others)) :
    List.Forall₂ Dateless items others := by
  have hpairs := array_same_iff.mp h.same
  refine List.forall₂_iff_zip.mpr ⟨hpairs.length_eq, fun {x y} hxy => ?_⟩
  exact ⟨(List.forall₂_iff_zip.mp hpairs).2 hxy,
    (every_array.mp h.left).2 x (List.of_mem_zip hxy).1,
    (every_array.mp h.right).2 y (List.of_mem_zip hxy).2⟩

theorem forall₂_denotesByte_iff {items others : List Value} (h : List.Forall₂ Dateless items others) :
    List.Forall₂ DenotesByte items content ↔ List.Forall₂ DenotesByte others content := by
  induction h generalizing content with
  | nil => rfl
  | cons hab _ ih =>
    cases content with
    | nil => simp
    | cons byte content =>
      rw [List.forall₂_cons, List.forall₂_cons, ih, DenotesByte, DenotesByte, hab.number?_iff]

theorem spells_iff (h : Dateless a b) : a.Spells content ↔ b.Spells content := by
  constructor
  · intro ha
    cases ha with
    | bytes => exact bytes_same_iff.mp h.same
    | array hitems =>
      cases b with
      | bytes other => exact (same_bytes_iff.mp h.same).unique (.array hitems) ▸ .bytes
      | array others => exact .array ((forall₂_denotesByte_iff h.elements).mp hitems)
      | _ => cases h.same
  · intro hb
    cases hb with
    | bytes => exact same_bytes_iff.mp h.same
    | array hothers =>
      cases a with
      | bytes other => exact (bytes_same_iff.mp h.same).unique (.array hothers) ▸ .bytes
      | array items => exact .array ((forall₂_denotesByte_iff h.elements).mpr hothers)
      | float x =>
        obtain ⟨m, -, hm⟩ := number?_of_float_same h.same
        cases hm
      | _ => cases h.same

theorem forall₂_trans {items others thirds : List Value} (h : List.Forall₂ Dateless items others)
    (h' : List.Forall₂ Dateless others thirds)
    (ih : ∀ item ∈ items, ∀ b c, Dateless item b → Dateless b c → item.same c = true) :
    List.Forall₂ (fun a c => a.same c = true) items thirds := by
  induction h generalizing thirds with
  | nil =>
    cases h'
    exact .nil
  | cons hab _ hrest =>
    cases h' with
    | cons hbc h' =>
      rw [List.forall_mem_cons] at ih
      exact .cons (ih.1 _ _ hab hbc) (hrest h' ih.2)

theorem field {field : String × Value} (h : Dateless (.object xs) (.object ys)) (hf : field ∈ xs) :
    ∃ b, ys.lookup field.1 = some b ∧ Dateless field.2 b := by
  obtain ⟨b, hb, hsame⟩ := (object_same_iff.mp h.same).2 field hf
  exact ⟨b, hb, hsame, (every_object.mp h.left).2 field hf, every_field h.right hb⟩

theorem trans (h : Dateless a b) (h' : Dateless b c) : a.same c = true := by
  induction a using induct generalizing b c with
  | array items ih =>
    cases b with
    | array others =>
      cases c with
      | array thirds =>
        exact array_same_iff.mpr
          (forall₂_trans h.elements h'.elements fun item hi _ _ => ih item hi)
      | bytes content =>
        exact same_bytes_iff.mpr (h.spells_iff.mpr (same_bytes_iff.mp h'.same))
      | _ => cases h'.same
    | bytes content => exact (same_bytes_iff.mp h.same).same (bytes_same_iff.mp h'.same)
    | _ => cases h.same
  | object xs ih =>
    obtain ⟨ys, rfl⟩ := object_of_same h.same
    obtain ⟨zs, rfl⟩ := object_of_same h'.same
    have hlength := (object_same_iff.mp h.same).1.trans (object_same_iff.mp h'.same).1
    refine object_same_iff.mpr ⟨hlength, fun field hf => ?_⟩
    obtain ⟨b, hb, hab⟩ := h.field hf
    obtain ⟨c, hc, hbc⟩ := h'.field (mem_of_lookup hb)
    exact ⟨c, hc, ih field hf hab hbc⟩
  | leaf a harray hobject =>
    have hnumber : ∀ {m}, a.number? = some m → a.same c = true := fun hm =>
      (same_iff_number? hm (test_of_every h'.right)).mpr (h'.number?_iff.mp (h.number?_iff.mp hm))
    cases a with
    | array items => exact absurd rfl (harray items)
    | object xs => exact absurd rfl (hobject xs)
    | null =>
      obtain rfl := (null_of_same h.same).mp rfl
      exact h'.same
    | bool flag =>
      obtain rfl := bool_same_iff.mp h.same
      exact h'.same
    | text content =>
      obtain rfl := text_same_iff.mp h.same
      exact h'.same
    | date t => cases h.left
    | bytes content => exact bytes_same_iff.mpr (h'.spells_iff.mp (bytes_same_iff.mp h.same))
    | int n => exact hnumber rfl
    | uint n => exact hnumber rfl
    | float x =>
      obtain ⟨m, hm, -⟩ := number?_of_float_same h.same
      exact hnumber hm

end Dateless

-- ---------------------------------------------------------------------------
-- Symmetry and reflexivity
-- ---------------------------------------------------------------------------

theorem forall₂_symm {items others : List Value}
    (h : List.Forall₂ (fun a b => a.same b = true) items others)
    (ih : ∀ item ∈ items, ∀ other ∈ others, item.same other = true → other.same item = true) :
    List.Forall₂ (fun a b => a.same b = true) others items := by
  induction h with
  | nil => exact .nil
  | cons hab _ hrest =>
    exact .cons (ih _ (List.mem_cons_self ..) _ (List.mem_cons_self ..) hab) (hrest fun item hi other ho =>
      ih item (List.mem_cons_of_mem _ hi) other (List.mem_cons_of_mem _ ho))

theorem same_symm (h : a.same b = true) (ha : a.every namesOnce = true)
    (hb : b.every namesOnce = true) : b.same a = true := by
  induction a using induct generalizing b with
  | array items ih =>
    cases b with
    | array others =>
      exact array_same_iff.mpr (forall₂_symm (array_same_iff.mp h) fun item hi other ho hsame =>
        ih item hi hsame ((every_array.mp ha).2 item hi) ((every_array.mp hb).2 other ho))
    | bytes content => exact bytes_same_iff.mpr (same_bytes_iff.mp h)
    | _ => cases h
  | object xs ih =>
    obtain ⟨ys, rfl⟩ := object_of_same h
    have hnames : (xs.map (·.1)).Nodup := names_nodup ha
    refine same_object (names_nodup hb) hnames fun name => ?_
    have hslot := sameSlot_of_same hnames h name
    cases hx : xs.lookup name with
    | none =>
      cases hy : ys.lookup name with
      | none => trivial
      | some y => rwa [hx, hy] at hslot
    | some x =>
      cases hy : ys.lookup name with
      | none => rwa [hx, hy] at hslot
      | some y =>
        rw [hx, hy] at hslot
        exact ih _ (mem_of_lookup hx) hslot (every_field ha hx) (every_field hb hy)
  | leaf a harray hobject =>
    have hnumber : ∀ {m}, a.number? = some m → b.number? = some m → b.same a = true := fun hm hm' =>
      (same_iff_number? hm' (notDate_of_number? hm)).mpr hm
    cases a with
    | array items => exact absurd rfl (harray items)
    | object xs => exact absurd rfl (hobject xs)
    | null =>
      obtain rfl := (null_of_same h).mp rfl
      exact h
    | bool flag =>
      obtain rfl := bool_same_iff.mp h
      exact h
    | text content =>
      obtain rfl := text_same_iff.mp h
      exact h
    | date t =>
      cases b with
      | date u => exact beq_iff_eq.mpr (beq_iff_eq.mp h).symm
      | int n => exact beq_iff_eq.mpr (beq_iff_eq.mp h).symm
      | _ => cases h
    | bytes content => exact same_bytes_iff.mpr (bytes_same_iff.mp h)
    | int n =>
      cases b with
      | date u => exact beq_iff_eq.mpr (beq_iff_eq.mp h).symm
      | _ => exact hnumber rfl ((same_iff_number? rfl rfl).mp h)
    | uint n =>
      cases b with
      | date u => cases h
      | _ => exact hnumber rfl ((same_iff_number? rfl rfl).mp h)
    | float x =>
      obtain ⟨m, hm, hm'⟩ := number?_of_float_same h
      exact hnumber hm hm'

theorem same_self_iff (ha : a.every namesOnce = true) :
    a.same a = true ↔ a.every notNaN = true := by
  induction a using induct with
  | array items ih =>
    rw [array_same_iff, List.forall₂_same, every_array]
    have hnames := (every_array.mp ha).2
    exact ⟨fun h => ⟨rfl, fun item hi => (ih item hi (hnames item hi)).mp (h item hi)⟩,
      fun h item hi => (ih item hi (hnames item hi)).mpr (h.2 item hi)⟩
  | object xs ih =>
    have hnodup : (xs.map (·.1)).Nodup := names_nodup ha
    have hnames := (every_object.mp ha).2
    have hself : ∀ field ∈ xs, (∃ b, xs.lookup field.1 = some b ∧ field.2.same b = true) ↔
        field.2.every notNaN = true := by
      intro field hf
      rw [lookup_of_mem hnodup hf, ← ih field hf (hnames field hf)]
      simp
    rw [object_same_iff, every_object]
    exact ⟨fun h => ⟨rfl, fun field hf => (hself field hf).mp (h.2 field hf)⟩,
      fun h => ⟨rfl, fun field hf => (hself field hf).mpr (h.2 field hf)⟩⟩
  | leaf a harray hobject =>
    cases a with
    | array items => exact absurd rfl (harray items)
    | object xs => exact absurd rfl (hobject xs)
    | float x => simp [same, sameScalar, Binary64.equals, every, notNaN, floatPasses]
    | int n => exact iff_of_true ((same_iff_number? rfl rfl).mpr rfl) rfl
    | uint n => exact iff_of_true ((same_iff_number? rfl rfl).mpr rfl) rfl
    | null => exact iff_of_true rfl rfl
    | _ => exact iff_of_true (beq_self_eq_true _) rfl

/-- Numbers have the same content just when they denote one number, and just those that denote an
integer of a word convert to it; for a float this is what two comparisons with the rounded ends of
the range tell. Equality of content is symmetric, reflexive without NaN alone, and transitive without
dates. -/
theorem same_laws :
    (∀ (a b : Value) (m n : Number), a.number? = some m → b.number? = some n → (a.same b = true ↔ m = n)) ∧
    (∀ v : Value, v.number? = none ↔ v.toBinary64? = none ∨ ∃ x, v = .float x ∧ x.isNaN = true) ∧
    (∀ (v : Value) (n : Int64), v.toInt64? = some n ↔ v.number? = some (.rational n.toInt)) ∧
    (∀ (v : Value) (n : UInt64), v.toUInt64? = some n ↔ v.number? = some (.rational (n.toNat : Int))) ∧
    (∀ x : Binary64, (float x).toInt64? =
      if x.isIntegral && !x.below (.ofInt Int64.minValue.toInt) && x.below (.ofInt Int64.maxValue.toInt)
      then some (saturate x.truncated) else none) ∧
    (∀ x : Binary64, (float x).toUInt64? =
      if x.isIntegral && !x.below (.ofInt 0) && x.below (.ofInt (UInt64.size - 1))
      then some (UInt64.ofNat (min x.truncated.toNat (UInt64.size - 1))) else none) ∧
    (∀ a b : Value, a.every namesOnce = true → b.every namesOnce = true → a.same b = b.same a) ∧
    (∀ a : Value, a.every namesOnce = true → (a.same a = true ↔ a.every notNaN = true)) ∧
    ∀ a b c : Value, a.every notDate = true → b.every notDate = true → c.every notDate = true →
      a.same b = true → b.same c = true → a.same c = true := by
  refine ⟨fun a b m n ha hb => ?_, fun v => ?_, fun v n => toInt64?_eq_some_iff,
    fun v n => toUInt64?_eq_some_iff, Binary64.toInt64?_eq_range, Binary64.toUInt64?_eq_range,
    fun a b ha hb => ?_, fun a => same_self_iff, fun a b c ha hb hc h h' => ?_⟩
  · rw [same_iff_number? ha (notDate_of_number? hb), hb, Option.some.injEq, eq_comm]
  · exact number?_eq_none_iff
  · exact Bool.eq_iff_iff.mpr ⟨fun h => same_symm h ha hb, fun h => same_symm h hb ha⟩
  · exact Dateless.trans ⟨h, ha, hb⟩ ⟨h', hb, hc⟩

/-- Numbers in three variants next to bytes, below reordered fields, and the numbers at which a range
ends. -/
theorem same_laws_mixed :
    let zero : Value := .float ⟨0x8000000000000000⟩
    let a : Value := .object [("n", .array [zero, .uint 1]), ("b", .bytes [0, 255])]
    let b : Value := .object [("b", .array [.int 0, .float ⟨0x406fe00000000000⟩]),
      ("n", .array [.int 0, .float ⟨0x3ff0000000000000⟩])]
    let c : Value := .object [("n", .bytes [0, 1]), ("b", .array [zero, .uint 255])]
    a.same b = true ∧ b.same c = true ∧ a.same c = true ∧ b.same a = true ∧ c.same c = true ∧
      zero.number? = some (.rational (0 : Int)) ∧ zero.same (.int 0) = true ∧
      (float ⟨0x43e0000000000000⟩).number? = some (.rational (9223372036854775808 : Int)) ∧
      (float ⟨0x43e0000000000000⟩).same (.uint 9223372036854775808) = true ∧
      (float ⟨0x43e0000000000000⟩).toInt64? = none ∧
      (float ⟨0x43e0000000000000⟩).toUInt64? = some 9223372036854775808 := by
  intro zero a b c
  obtain ⟨hnumbers, -, hint, huint, hrange, -, hsymm, hself, htrans⟩ := same_laws
  have hab : a.same b = true := by decide +kernel
  have hbc : b.same c = true := by decide +kernel
  have hzero : zero.number? = some (.rational (0 : Int)) :=
    integer?_eq_some_iff.mp (by decide +kernel)
  have hpower : (float ⟨0x43e0000000000000⟩).number? = some (.rational (9223372036854775808 : Int)) :=
    integer?_eq_some_iff.mp (by decide +kernel)
  refine ⟨hab, hbc, htrans a b c (by decide) (by decide) (by decide) hab hbc,
    hsymm a b (by decide) (by decide) ▸ hab, (hself c (by decide)).mpr (by decide), hzero,
    (hnumbers zero (.int 0) _ _ hzero rfl).mpr rfl, hpower,
    (hnumbers _ (.uint 9223372036854775808) _ _ hpower rfl).mpr rfl, ?_, (huint _ _).mpr hpower⟩
  rw [hrange]
  decide +kernel

end Value

end Positional
