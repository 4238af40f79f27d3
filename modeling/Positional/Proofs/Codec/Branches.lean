import Positional.Proofs.Codec.Canonical

/-!
# Which option each side takes

The writer of a discriminator takes the option that the value in the document selects, the reader
the option that the value on the wire selects. The two values denote the same number, but one may be
an integer and the other a float, and a tag that is an integer compares exactly with the one and
after rounding with the other. Where several integers round to one float, the sides may part; this
is the only way they do.
-/

namespace Positional

namespace Kind

/-- The kinds of tags that are part of the data. -/
def isTagKind : Kind → Bool
  | string | float | int | uint | boolean => true
  | _ => false

/-- Whether an integer goes over the wire as a float, or a float as an integer. -/
def crosses : Kind → Value → Bool
  | float, .int _ | float, .uint _ | int, .float _ | uint, .float _ => true
  | _, _ => false

end Kind

namespace Tag

def isWhole : Tag → Int → Bool
  | .int tag, n => tag.toInt == n
  | .float tag, n => (Binary64.ofInt n).equals tag
  | _, _ => false

/-- Whether the tag is another integer that rounds to the same float. -/
def blurs : Tag → Int → Bool
  | .int tag, n => tag.toInt != n && (Binary64.ofInt tag.toInt).equals (Binary64.ofInt n)
  | _, _ => false

/-- Whether of the value in the document and the value on the wire only one carries the tag. -/
def splits (kind : Kind) (value : Value) (tag : Tag) : Bool :=
  kind.crosses value && value.integer?.any tag.blurs

theorem blurs_not_isWhole {tag : Tag} (h : tag.blurs n = true) : tag.isWhole n = false := by
  cases tag with
  | int tag =>
    simp only [blurs, Bool.and_eq_true, bne_iff_ne] at h
    exact beq_eq_false_iff_ne.mpr h.1
  | _ => cases h

-- ---------------------------------------------------------------------------
-- Integers and floats
-- ---------------------------------------------------------------------------

section

variable {value : Value} (hv : value.integer? = some n) (hf : ∀ x, value ≠ .float x)
include hv hf

theorem natAbs_lt_of_integer : n.natAbs < UInt64.size := by
  have hsize : UInt64.size = 18446744073709551616 := rfl
  cases value with
  | int k =>
    cases hv
    have hlow := k.le_toInt
    have hhigh := k.toInt_lt
    omega
  | uint k =>
    cases hv
    have hlt := k.toNat_lt
    omega
  | float x => exact absurd rfl (hf x)
  | _ => cases hv

theorem matches_integer (tag : Tag) : tag.matchesValue value = tag.isWhole n := by
  cases value with
  | int k =>
    cases hv
    cases tag with
    | int tag => simp only [matchesValue, isWhole, Bool.beq_eq_decide_eq, Int64.toInt_inj]
    | _ => rfl
  | uint k =>
    cases hv
    cases tag <;> rfl
  | float x => exact absurd rfl (hf x)
  | _ => cases hv

/-- A float of the same number carries the tags that the integer carries and those that rounding
makes one with it. -/
theorem matches_float {x : Binary64} (hx : x.toInt? = (Binary64.ofInt n).toInt?) (tag : Tag) :
    tag.matchesValue (.float x) = (tag.isWhole n || tag.blurs n) := by
  obtain ⟨k, hk⟩ := Option.isSome_iff_exists.mp
    (Binary64.isIntegral_ofInt (natAbs_lt_of_integer hv hf))
  rw [hk] at hx
  cases tag with
  | int tag =>
    have hbound : tag.toInt.natAbs < UInt64.size :=
      natAbs_lt_of_integer (show (Value.int tag).integer? = some tag.toInt from rfl) (by simp)
    obtain ⟨t, ht⟩ := Option.isSome_iff_exists.mp (Binary64.isIntegral_ofInt hbound)
    simp only [matchesValue, isWhole, blurs, Binary64.isIntegral, hx, Option.isSome_some,
      Bool.true_and, Binary64.equals_of_toInt? ht hx, Binary64.equals_of_toInt? ht hk]
    by_cases htag : tag.toInt = n
    · have htk : t = k := Option.some.inj (ht.symm.trans (htag ▸ hk))
      simp [htag, htk]
    · rw [bne, beq_eq_false_iff_ne.mpr htag]
      rfl
  | float tag =>
    simp only [matchesValue, Value.toBinary64?, isWhole, blurs, Bool.or_false]
    exact Binary64.equals_congr hx hk tag
  | _ => rfl

theorem matches_float_iff {x : Binary64} (hx : x.toInt? = (Binary64.ofInt n).toInt?) (tag : Tag) :
    tag.matchesValue (.float x) = tag.matchesValue value ↔ tag.blurs n = false := by
  rw [matches_integer hv hf, matches_float hv hf hx]
  cases hb : tag.blurs n with
  | false => simp
  | true => simp [blurs_not_isWhole hb]

end

theorem matches_integer_iff {kind : Kind} {own value : Value} (ho : own.integer? = some n)
    (hf : ∀ x, own ≠ .float x) (hv : value.integer? = some n)
    (hc : ∀ value, kind.crosses value = true ↔ ∃ x, value = .float x) (tag : Tag) :
    tag.matchesValue own = tag.matchesValue value ↔ tag.splits kind value = false := by
  by_cases hfloat : ∃ x, value = .float x
  · have hcross := (hc value).mpr hfloat
    obtain ⟨x, rfl⟩ := hfloat
    have hx : x.toInt? = (Binary64.ofInt n).toInt? :=
      Eq.trans hv (Binary64.toInt?_ofInt hv).symm
    rw [eq_comm, matches_float_iff ho hf hx, splits, hcross, hv, Option.any_some, Bool.true_and]
  · have hcross : kind.crosses value = false := Bool.not_eq_true _ ▸ mt (hc value).mp hfloat
    have hvalue := matches_integer hv (fun x hx => hfloat ⟨x, hx⟩) tag
    rw [matches_integer ho hf, hvalue, splits, hcross, Bool.false_and]
    simp

/-- The two sides disagree on a tag exactly when it splits them. -/
theorem matches_own_iff {kind : Kind} {value own : Value} (hk : kind.isTagKind = true)
    (h : kind.canonical? value = some own) (tag : Tag) :
    tag.matchesValue own = tag.matchesValue value ↔ tag.splits kind value = false := by
  cases kind with
  | string => cases value <;> cases h; simp [splits, Kind.crosses]
  | boolean => cases value <;> cases h; simp [splits, Kind.crosses]
  | float =>
    cases value with
    | float x =>
      cases h
      simp [splits, Kind.crosses]
    | int n =>
      cases h
      exact matches_float_iff (show (Value.int n).integer? = some n.toInt from rfl) (by simp) rfl tag
    | uint n =>
      cases h
      exact matches_float_iff (show (Value.uint n).integer? = some (n.toNat : Int) from rfl) (by simp)
        rfl tag
    | _ => cases h
  | int =>
    obtain ⟨n, hn, rfl⟩ := Option.map_eq_some_iff.mp h
    obtain ⟨k, hv, hrange⟩ := Option.bind_eq_some_iff.mp hn
    have hown : (Value.int n).integer? = some k := congrArg some (int64?_eq_some.mp hrange)
    refine matches_integer_iff hown (by simp) hv (fun value => ?_) tag
    cases value <;> simp [Kind.crosses]
  | uint =>
    obtain ⟨n, hn, rfl⟩ := Option.map_eq_some_iff.mp h
    obtain ⟨k, hv, hrange⟩ := Option.bind_eq_some_iff.mp hn
    have hown : (Value.uint n).integer? = some k := congrArg some (uint64?_eq_some.mp hrange)
    refine matches_integer_iff hown (by simp) hv (fun value => ?_) tag
    cases value <;> simp [Kind.crosses]
  | _ => cases hk

end Tag

/-- Two tests find the same place first when they agree on the first item that one of them accepts. -/
theorem findIdx?_eq_iff {p q : α → Bool} {items : List α} : items.findIdx? p = items.findIdx? q ↔
    ∀ a, items.find? (fun a => p a || q a) = some a → p a = q a := by
  induction items with
  | nil => simp
  | cons item items ih =>
    rw [List.findIdx?_cons, List.findIdx?_cons, List.find?_cons]
    have hinj : ∀ a b : Option Nat, a.map (· + 1) = b.map (· + 1) ↔ a = b :=
      fun _ _ => Option.map_inj_right fun _ _ => Nat.succ.inj
    cases hp : p item <;> cases hq : q item
    · simpa [hinj] using ih
    all_goals cases items.findIdx? p <;> cases items.findIdx? q <;> simp [hp, hq]

namespace Block

/-- The place of the first option whose tag the value carries. -/
def choice (options : List (Tag × Program)) (value : Value) : Option Nat :=
  options.findIdx? fun option => option.1.matchesValue value

theorem body_eq_of_choice (h : choice options a = choice options b) :
    body options a = body options b := by
  rw [choice, choice] at h
  rw [body, body, select, select, List.find?_eq_bind_findIdx?_getElem?,
    List.find?_eq_bind_findIdx?_getElem?, h]

theorem readOption_eq_body (limits : Limits) (options : List (Tag × Program)) (tag : Value)
    (depth : Nat) : readOption limits options tag depth = readAll limits (body options tag) depth := by
  rw [readOption_eq, body]
  cases select options tag <;> rfl

/-- Both sides choose the same option unless the first one that could be chosen by either has a tag
that splits them. -/
theorem choice_own_iff {kind : Kind} {value own : Value} (hk : kind.isTagKind = true)
    (h : kind.canonical? value = some own) (options : List (Tag × Program)) :
    choice options own = choice options value ↔
      ∀ option, options.find? (fun option =>
          option.1.matchesValue value || option.1.splits kind value) = some option →
        option.1.splits kind value = false := by
  have heither : (fun option : Tag × Program =>
      option.1.matchesValue own || option.1.matchesValue value) =
      fun option => option.1.matchesValue value || option.1.splits kind value := by
    funext option
    have hiff := option.1.matches_own_iff hk h
    cases hs : option.1.splits kind value with
    | false => rw [hiff.mpr hs, Bool.or_self, Bool.or_false]
    | true =>
      have hne : ¬ option.1.matchesValue own = option.1.matchesValue value := by
        rw [hiff, hs]
        decide
      revert hne
      cases option.1.matchesValue own <;> cases option.1.matchesValue value <;> decide
  rw [choice, choice, findIdx?_eq_iff, heither]
  simp only [Tag.matches_own_iff hk h]

/-- What the writer writes for a tag, the reader reads as a tag for which it chooses the same option,
and so the same blocks, unless the first option that either could choose has a tag that splits the
two. -/
theorem choice_read_iff {kind : Kind} {value : Value} (hk : kind.isTagKind = true)
    (he : kind.encode? value = some written) (hlen : written.length < UInt64.size)
    (options : List (Tag × Program)) (pos : Nat) (rest : Bytes) :
    ∃ own, kind.read.run ⟨pos, written ++ rest⟩ = (.ok own, ⟨pos + written.length, rest⟩) ∧
      (choice options own = choice options value ↔
        ∀ option, options.find? (fun option =>
            option.1.matchesValue value || option.1.splits kind value) = some option →
          option.1.splits kind value = false) ∧
      (choice options own = choice options value → ∃ body,
        (∀ data, emitOption options value data = emitAll body data) ∧
        ∀ limits depth, readOption limits options own depth = readAll limits body depth) := by
  rw [Kind.encode?_eq] at he
  obtain ⟨own, hown, he⟩ := Option.bind_eq_some_iff.mp he
  have hread := (Kind.returns_read (Kind.canonical?_canonical hown) he pos rest).resolve_right
    fun herr => herr.1 hlen
  refine ⟨own, hread, choice_own_iff hk hown options, fun hsame => ⟨body options value,
    emitOption_eq_body options value, fun limits depth => ?_⟩⟩
  rw [readOption_eq_body, body_eq_of_choice hsame]

/-- A whole float is written as an integer, for which the same option is chosen. -/
theorem choice_read_iff_five : ∃ own,
    Kind.int.read.run ⟨0, [10] ++ [7]⟩ = (.ok own, ⟨0 + 1, [7]⟩) ∧
      choice [(.int 4, []), (.int 5, [])] own
        = choice [(.int 4, []), (.int 5, [])] (.float ⟨0x4014000000000000⟩) := by
  have he : Kind.int.encode? (.float ⟨0x4014000000000000⟩) = some [10] := by decide +kernel
  have hnone : ∀ option ∈ [((.int 4 : Tag), ([] : Program)), (.int 5, [])],
      option.1.splits .int (.float ⟨0x4014000000000000⟩) = false := by
    simp only [List.forall_mem_cons]
    exact ⟨by decide +kernel, by decide +kernel, by simp⟩
  obtain ⟨own, hread, hiff, -⟩ :=
    choice_read_iff rfl he (by decide) [(.int 4, []), (.int 5, [])] 0 [7]
  exact ⟨own, hread, hiff.mpr fun option h => hnone option (List.mem_of_find?_eq_some h)⟩

/-- The float `2 ^ 53` carries the tag `2 ^ 53 + 1`, but the integer that is written for it does not:
the reader skips the blocks of the option and stops short of their bytes. -/
theorem choice_lost :
    choice [(.int 9007199254740993, [.primitive .string ["s"]])] (.float ⟨0x4340000000000000⟩)
      = some 0 ∧
    Kind.int.encode? (.float ⟨0x4340000000000000⟩) = some [128, 128, 128, 128, 128, 128, 128, 32] ∧
    Kind.int.read.run (Cursor.start [128, 128, 128, 128, 128, 128, 128, 32])
      = (.ok (.int 9007199254740992), ⟨8, []⟩) ∧
    choice [(.int 9007199254740993, [.primitive .string ["s"]])] (.int 9007199254740992) = none ∧
    Program.encode [.discriminator .int [(.int 9007199254740993, [.primitive .string ["s"]])] "t" []]
      (.object [("t", .float ⟨0x4340000000000000⟩), ("s", .text "x")])
      = .ok [128, 128, 128, 128, 128, 128, 128, 32, 1, 120] ∧
    Program.decode [.discriminator .int [(.int 9007199254740993, [.primitive .string ["s"]])] "t" []]
      .exact [128, 128, 128, 128, 128, 128, 128, 32, 1, 120] = .error (.trailingBytes 2) :=
  ⟨by decide +kernel, by decide +kernel, rfl, by decide +kernel,
    Program.encode_ok.mpr (by decide +kernel), rfl⟩

end Block

end Positional
