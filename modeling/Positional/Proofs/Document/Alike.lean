import Mathlib.Data.List.Forall2
import Mathlib.Data.List.Perm.Subperm
import Positional.Proofs.Binary64.Nearest
import Positional.Proofs.Document.Content
import Positional.Proofs.Document.Every
import Positional.Proofs.Wire.Carried

/-!
# Documents of one content

Of two documents of the same content, each has a field where the other has one and an element where
the other has one, of the same content again. A kind that carries both carries the same, unless one
of them holds the negative zero, which is equal to a zero that goes over the wire otherwise.
-/

namespace Positional

namespace Value

-- ---------------------------------------------------------------------------
-- The shape of a document of the same content
-- ---------------------------------------------------------------------------

theorem null_of_same {a b : Value} (h : a.same b = true) : a = .null ↔ b = .null := by
  constructor
  · rintro rfl
    cases b <;> first | rfl | cases h
  · rintro rfl
    cases a with
    | null => rfl
    | float x => simp [same, sameScalar, integer?, Option.isSome_iff_ne_none] at h
    | _ => cases h

theorem object_of_same {b : Value} (h : (object xs).same b = true) : ∃ ys, b = .object ys := by
  cases b with
  | object ys => exact ⟨ys, rfl⟩
  | _ => cases h

theorem object_of_same_object {a : Value} (h : a.same (object ys) = true) : ∃ xs, a = .object xs := by
  cases a with
  | object xs => exact ⟨xs, rfl⟩
  | float x => simp [same, sameScalar, integer?, Option.isSome_iff_ne_none] at h
  | _ => cases h

/-- Objects of the same content have the same names, each with the same content. -/
theorem sameSlot_of_same (hx : (xs.map (·.1)).Nodup)
    (h : (object xs).same (object ys) = true) (name : String) :
    SameSlot (xs.lookup name) (ys.lookup name) := by
  rw [same, Bool.and_eq_true, beq_iff_eq] at h
  obtain ⟨hlength, hfields⟩ := h
  have hfields := sameFields_iff.mp hfields
  have hsubset : xs.map (·.1) ⊆ ys.map (·.1) := by
    intro other hother
    obtain ⟨field, hf, rfl⟩ := List.mem_map.mp hother
    obtain ⟨b, hb, -⟩ := hfields field hf
    rw [mem_names_iff, hb]
    simp
  -- distinct names, all found on the other side, and equally many there
  have hperm : (xs.map (·.1)).Perm (ys.map (·.1)) :=
    (List.subperm_of_subset hx hsubset).perm_of_length_le (by simp [hlength])
  cases hxs : xs.lookup name with
  | some a =>
    obtain ⟨b, hb, hab⟩ := hfields _ (mem_of_lookup hxs)
    rw [hb]
    exact hab
  | none =>
    have hnot : name ∉ ys.map (·.1) := fun hmem =>
      absurd hxs (mem_names_iff.mp (hperm.mem_iff.mpr hmem))
    rw [mem_names_iff, not_not] at hnot
    rw [hnot]
    trivial

theorem forall₂_of_sameItems (h : sameItems xs ys = true) :
    List.Forall₂ (fun a b => a.same b = true) xs ys := by
  induction xs generalizing ys with
  | nil =>
    cases ys with
    | nil => exact .nil
    | cons => cases h
  | cons x xs ih =>
    cases ys with
    | nil => cases h
    | cons y ys =>
      rw [sameItems, Bool.and_eq_true] at h
      exact .cons h.1 (ih h.2)

-- ---------------------------------------------------------------------------
-- Numbers
-- ---------------------------------------------------------------------------

theorem toBinary64?_cases {v : Value} (h : v.toBinary64? = some x) :
    v = .float x ∨ (∀ y, v ≠ .float y) ∧ ∃ n, v.integer? = some n ∧ x = .ofInt n := by
  cases v with
  | float y =>
    cases h
    exact .inl rfl
  | int n =>
    cases h
    exact .inr ⟨by simp, _, rfl, rfl⟩
  | uint n =>
    cases h
    exact .inr ⟨by simp, _, rfl, rfl⟩
  | _ => cases h

theorem toBinary64?_of_integer? {v : Value} (h : v.integer? = some n) : ∃ x, v.toBinary64? = some x := by
  cases v <;> first | exact ⟨_, rfl⟩ | cases h

/-- Numbers of the same content denote the same whole number, unless both are floats. -/
theorem integer?_eq_of_same {a b : Value} (ha : a.toBinary64? = some x) (hb : b.toBinary64? = some y)
    (hf : (∀ z, a ≠ .float z) ∨ ∀ z, b ≠ .float z) (h : a.same b = true) :
    a.integer? = b.integer? := by
  have hsame : a.same b = (a.integer?.isSome && a.integer? == b.integer?) := by
    cases a with
    | float z =>
      cases b with
      | float z' => simp at hf
      | _ => rfl
    | int k => cases b <;> first | rfl | cases hb
    | uint k => cases b <;> rfl
    | _ => cases ha
  rw [hsame, Bool.and_eq_true, beq_iff_eq] at h
  exact h.2

theorem integer?_of_same {a b : Value} (h : a.same b = true) (ha : a.integer? = some m)
    (hb : b.integer? = some n) : m = n := by
  obtain ⟨x, hx⟩ := toBinary64?_of_integer? ha
  obtain ⟨y, hy⟩ := toBinary64?_of_integer? hb
  by_cases hf : (∀ z, a ≠ .float z) ∨ ∀ z, b ≠ .float z
  · exact Option.some.inj (ha.symm.trans ((integer?_eq_of_same hx hy hf h).trans hb))
  · rcases toBinary64?_cases hx with rfl | ⟨hna, -⟩
    · rcases toBinary64?_cases hy with rfl | ⟨hnb, -⟩
      · have hequal : x.equals y = true := h
        rw [Binary64.equals_of_toInt? ha hb] at hequal
        exact of_decide_eq_true hequal
      · exact absurd (.inr hnb) hf
    · exact absurd (.inl hna) hf

theorem bind_integer?_of_same {a b : Value} {f : Int → Option α} (h : a.same b = true)
    (ha : a.integer?.bind f = some m) (hb : b.integer?.bind f = some n) : m = n := by
  obtain ⟨k, hk, hm⟩ := Option.bind_eq_some_iff.mp ha
  obtain ⟨l, hl, hn⟩ := Option.bind_eq_some_iff.mp hb
  rw [integer?_of_same h hk hl] at hm
  exact Option.some.inj (hm.symm.trans hn)

theorem toByte?_eq_some {value : Value} (h : value.toByte? = some byte) :
    ∃ n, value.integer? = some n ∧ byte = UInt8.ofNat n.toNat := by
  rw [toByte?] at h
  cases hn : value.integer? with
  | none => simp [hn] at h
  | some n =>
    rw [hn] at h
    simp only at h
    split at h
    · exact ⟨n, rfl, (Option.some.inj h).symm⟩
    · cases h

theorem toBytes?_of_same {a b : Value} (h : a.same b = true) (ha : a.toBytes? = some first)
    (hb : b.toBytes? = some second) : first = second := by
  have hinj : ∀ {c d : Bytes}, c.map some = d.map some → c = d :=
    fun heq => (List.map_inj_right fun _ _ => Option.some.inj).mp heq
  cases a with
  | bytes content =>
    cases ha
    cases b with
    | bytes other =>
      cases hb
      exact beq_iff_eq.mp h
    | array items => exact hinj ((beq_iff_eq.mp h).symm.trans (Kind.map_toByte?_of_mapM hb))
    | _ => cases hb
  | array items =>
    have hitems := Kind.map_toByte?_of_mapM ha
    cases b with
    | bytes other =>
      cases hb
      exact hinj (hitems.symm.trans (beq_iff_eq.mp h))
    | array others =>
      have hothers := Kind.map_toByte?_of_mapM hb
      -- element by element, where the same whole number is the same byte
      have hpairs := forall₂_of_sameItems h
      clear ha hb h
      revert hitems hothers
      induction hpairs generalizing first second with
      | nil => exact fun hitems hothers => hinj (hitems.symm.trans hothers)
      | cons hab _ ih =>
        intro hitems hothers
        cases first with
        | nil => cases hitems
        | cons byte first =>
          cases second with
          | nil => cases hothers
          | cons other second =>
            obtain ⟨hbyte, hrest⟩ := List.cons.inj hitems
            obtain ⟨hother, hmore⟩ := List.cons.inj hothers
            obtain ⟨m, hm, rfl⟩ := toByte?_eq_some hbyte
            obtain ⟨n, hn, rfl⟩ := toByte?_eq_some hother
            rw [integer?_of_same hab hm hn, ih hrest hmore]
    | _ => cases hb
  | _ => cases ha

-- ---------------------------------------------------------------------------
-- Alike
-- ---------------------------------------------------------------------------

/-- Whether a value, if it is a float, is another number than the negative zero. -/
def notNegativeZero : Value → Bool := floatPasses fun x => !x.isNegativeZero

/-- Documents of one content, their names distinct and without the negative zero. -/
structure Alike (a b : Value) : Prop where
  same : a.same b = true
  names_left : a.every namesOnce = true
  names_right : b.every namesOnce = true
  zeros_left : a.every notNegativeZero = true
  zeros_right : b.every notNegativeZero = true

namespace Alike

variable {a b : Value}

theorem fields (h : Alike a b) (name : String) :
    Option.Rel Alike (a.fields.lookup name) (b.fields.lookup name) := by
  have hslot : SameSlot (a.fields.lookup name) (b.fields.lookup name) := by
    by_cases hobject : ∃ xs, a = .object xs
    · obtain ⟨xs, rfl⟩ := hobject
      obtain ⟨ys, rfl⟩ := object_of_same h.same
      exact sameSlot_of_same (names_nodup h.names_left) h.same name
    · have hother : ¬ ∃ ys, b = .object ys := by
        rintro ⟨ys, rfl⟩
        exact hobject (object_of_same_object h.same)
      have hnone : ∀ v : Value, (¬ ∃ xs, v = .object xs) → v.fields = [] := by
        intro v hv
        cases v with
        | object xs => exact absurd ⟨xs, rfl⟩ hv
        | _ => rfl
      rw [hnone a hobject, hnone b hother]
      trivial
  cases ha : a.fields.lookup name with
  | none =>
    cases hb : b.fields.lookup name with
    | none => exact .none
    | some y =>
      rw [ha, hb] at hslot
      exact hslot.elim
  | some x =>
    cases hb : b.fields.lookup name with
    | none =>
      rw [ha, hb] at hslot
      exact hslot.elim
    | some y =>
      rw [ha, hb] at hslot
      exact .some ⟨hslot, every_field h.names_left ha, every_field h.names_right hb,
        every_field h.zeros_left ha, every_field h.zeros_right hb⟩

theorem elements (h : Alike (.array xs) (.array ys)) : List.Forall₂ Alike xs ys := by
  have hpairs := forall₂_of_sameItems h.same
  have hall : ∀ {test : Value → Bool} {items : List Value}, (Value.array items).every test = true →
      ∀ item ∈ items, item.every test = true := fun he => (every_array.mp he).2
  refine List.forall₂_iff_zip.mpr ⟨hpairs.length_eq, fun {x y} hxy => ?_⟩
  have hx := (List.of_mem_zip hxy).1
  have hy := (List.of_mem_zip hxy).2
  exact ⟨(List.forall₂_iff_zip.mp hpairs).2 hxy, hall h.names_left x hx, hall h.names_right y hy,
    hall h.zeros_left x hx, hall h.zeros_right y hy⟩

theorem toBinary64? (h : Alike a b) (ha : a.toBinary64? = some x) (hb : b.toBinary64? = some y) :
    x = y := by
  have hzero : ∀ {z : Binary64}, (Value.float z).every notNegativeZero = true →
      z.isNegativeZero = false := fun hz => by simpa [every, notNegativeZero, floatPasses] using hz
  rcases toBinary64?_cases ha with rfl | ⟨hna, m, hm, rfl⟩
  · rcases toBinary64?_cases hb with rfl | ⟨hnb, n, hn, rfl⟩
    · exact Binary64.eq_of_equals (hzero h.zeros_left) (hzero h.zeros_right) h.same
    · have hx := (integer?_eq_of_same ha hb (.inr hnb) h.same).trans hn
      exact (Binary64.ofInt_of_toInt? (hzero h.zeros_left) hx).symm
  · rcases toBinary64?_cases hb with rfl | ⟨hnb, n, hn, rfl⟩
    · have hy := (integer?_eq_of_same ha hb (.inl hna) h.same).symm.trans hm
      exact Binary64.ofInt_of_toInt? (hzero h.zeros_right) hy
    · rw [integer?_of_same h.same hm hn]

end Alike

end Value

end Positional
