import Mathlib.Data.List.Forall2
import Mathlib.Data.Option.Basic
import Positional.Proofs.Program.Every

/-!
# Writing two documents that correspond

A relation between values that leads from fields to fields and from elements to elements, and whose
pairs have the same bytes under each kind, leads from documents to documents with the same bytes
(`Pairing.follows`). A lenient relation only promises this where the second document can be written.
-/

namespace Positional

/-- If the first run succeeds, the second writes the same; if lenient, it may also fail. -/
def Emission.Follows (lenient : Prop) (first second : Emission) : Prop :=
  ∀ written, first = .ofBytes written →
    second = .ofBytes written ∨ lenient ∧ ∀ other, second ≠ .ofBytes other

theorem rel_of_some {R : Value → Value → Prop} (h : Option.Rel R (some a) slot) :
    ∃ b, slot = some b ∧ R a b := by
  cases h with
  | some hab => exact ⟨_, rfl, hab⟩

/-- A relation under which programs whose blocks pass a test write the same for both sides. -/
structure Pairing (lenient : Prop) (test : Block → Prop) (R : Value → Value → Prop) : Prop where
  fields (h : R a b) (name : String) : Option.Rel R (a.fields.lookup name) (b.fields.lookup name)
  null (h : R a b) : a = .null ↔ b = .null
  elements {items : List Value} (h : R (.array items) b) :
    (∃ others, b = .array others ∧ List.Forall₂ R items others) ∨
      lenient ∧ ∀ others, b ≠ .array others
  encode {kind : Kind} (h : R a b) (hw : kind.encode? a = some written) :
    kind.encode? b = some written ∨ lenient ∧ kind.encode? b = none
  tags (ht : test (.discriminator kind options field path)) (hf : Block.tellsPresence field = false)
    (h : R a b) (ha : kind.encode? a = some written) (hb : kind.encode? b = some written) :
    ∀ option ∈ options, option.1.matchesValue a = option.1.matchesValue b

namespace Emission

variable {lenient : Prop} {first second : Emission}

theorem Follows.refl (e : Emission) : Follows lenient e e := fun _ h => .inl h

theorem Follows.append (h : Follows lenient first second) (h' : Follows lenient rest others) :
    Follows lenient (first ++ rest) (second ++ others) := by
  intro written hw
  obtain ⟨a, b, ha, hb, rfl⟩ := append_eq_ofBytes.mp hw
  rcases h a ha with hsecond | ⟨hl, hfail⟩
  · rcases h' b hb with hothers | ⟨hl, hfail⟩
    · exact .inl (append_eq_ofBytes.mpr ⟨a, b, hsecond, hothers, rfl⟩)
    · refine .inr ⟨hl, fun other hother => ?_⟩
      obtain ⟨_, d, -, hd, -⟩ := append_eq_ofBytes.mp hother
      exact hfail d hd
  · refine .inr ⟨hl, fun other hother => ?_⟩
    obtain ⟨c, _, hc, -, -⟩ := append_eq_ofBytes.mp hother
    exact hfail c hc

theorem follows_concat {f : Value → Emission} {R : Value → Value → Prop}
    (h : List.Forall₂ R items others) (hf : ∀ a b, R a b → Follows lenient (f a) (f b)) :
    Follows lenient (concat (items.map f)) (concat (others.map f)) := by
  induction h with
  | nil => exact Follows.refl _
  | cons hab _ ih => exact (hf _ _ hab).append ih

theorem follows_of_iff (first' second' : Emission)
    (hfirst : ∀ w, first = .ofBytes w ↔ first' = .ofBytes w)
    (hsecond : ∀ w, second = .ofBytes w ↔ second' = .ofBytes w)
    (h : Follows lenient first' second') : Follows lenient first second := by
  intro written hw
  rw [hsecond]
  simp only [ne_eq, hsecond]
  exact h written ((hfirst written).mp hw)

end Emission

namespace Pairing

open Emission

variable {lenient : Prop} {test : Block → Prop} {R : Value → Value → Prop}
  (hR : Pairing lenient test R)
include hR

theorem lookup {a b : Value} (h : R a b) (path : Path) :
    Option.Rel R (a.lookup path) (b.lookup path) := by
  induction path generalizing a b with
  | nil => exact .some h
  | cons name path ih =>
    rw [Value.lookup, Value.lookup]
    have hfield := hR.fields h name
    revert hfield
    cases a.fields.lookup name <;> cases b.fields.lookup name <;> intro hfield <;> cases hfield
    · exact .none
    · rename_i hab
      exact ih hab

theorem presenceTag_eq {first second : Option Value} (h : Option.Rel R first second) :
    presenceTag first = presenceTag second := by
  cases h with
  | none => rfl
  | some hab =>
    have hnull := hR.null hab
    rename_i a b
    by_cases ha : a = .null
    · rw [ha, hnull.mp ha]
    · rw [presenceTag_present ha, presenceTag_present (mt hnull.mpr ha)]

theorem follows_emit {kind : Kind} (h : R a b) (path : Path) :
    Follows lenient (kind.emit path a) (kind.emit path b) := by
  intro written hw
  simp only [ne_eq, Kind.emit_eq_ofBytes] at hw ⊢
  rcases hR.encode h hw with hsame | ⟨hl, hnone⟩
  · exact .inl hsame
  · exact .inr ⟨hl, by simp [hnone]⟩

theorem flags {flags : List Bool} (h : List.Forall₂ R (flags.map .bool) others) :
    others = flags.map .bool ∨ lenient ∧ ∀ found : List Bool, others ≠ found.map .bool := by
  induction flags generalizing others with
  | nil =>
    cases h
    exact .inl rfl
  | cons flag rest ih =>
    obtain ⟨b, tail, hb, htail, rfl⟩ := List.forall₂_cons_left_iff.mp h
    rcases hR.encode hb (show Kind.boolean.encode? (.bool flag) = some _ from rfl) with hsame | ⟨hl, hnone⟩
    · cases b with
      | bool found =>
        have heq : found = flag := by
          simp only [Kind.encode?, Wire.boolean, Option.some.injEq] at hsame
          cases found <;> cases flag <;> first | rfl | simp [Wire.varint_of_lt] at hsame
        subst heq
        rcases ih htail with rfl | ⟨hl, hno⟩
        · exact .inl rfl
        · refine .inr ⟨hl, fun found heq => ?_⟩
          cases found with
          | nil => cases heq
          | cons _ more => exact hno more (List.cons.inj heq).2
      | _ => cases hsame
    · refine .inr ⟨hl, fun found heq => ?_⟩
      cases found with
      | nil => cases heq
      | cons first more =>
        obtain rfl := (List.cons.inj heq).1
        cases hnone

theorem follows_emitElements (h : List.Forall₂ R items others) (kind : Kind) (path : Path) :
    Follows lenient (emitElements kind path items) (emitElements kind path others) := by
  by_cases hk : kind = .boolean
  · subst hk
    intro written hw
    obtain ⟨flags, rfl, rfl⟩ := Block.emitElements_boolean_ok.mp hw
    rcases hR.flags h with rfl | ⟨hl, hno⟩
    · exact .inl hw
    · refine .inr ⟨hl, fun other hother => ?_⟩
      obtain ⟨found, rfl, -⟩ := Block.emitElements_boolean_ok.mp hother
      exact hno found rfl
  · exact follows_of_iff _ _ (fun _ => Block.emitElements_ok hk) (fun _ => Block.emitElements_ok hk)
      (follows_concat h fun a b hab => hR.follows_emit hab [])

-- ---------------------------------------------------------------------------
-- Blocks
-- ---------------------------------------------------------------------------

theorem follows_primitive {x y : Value} (h : R x y) :
    Follows lenient ((Block.primitive kind p).emit x) ((Block.primitive kind p).emit y) := by
  refine follows_of_iff (kind.emit p (x.held p)) (kind.emit p (y.held p))
    (fun _ => Block.emit_primitive_ok.trans Kind.emit_eq_ofBytes.symm)
    (fun _ => Block.emit_primitive_ok.trans Kind.emit_eq_ofBytes.symm) ?_
  have hslot := hR.lookup h p
  rw [Value.held, Value.held]
  generalize x.lookup p = slot at hslot
  generalize y.lookup p = other at hslot
  cases hslot with
  | none => exact Follows.refl _
  | some hab => exact hR.follows_emit hab p

theorem follows_counted {x y : Value} {inner : Program} (h : R x y) (body : List Value → Emission)
    (hemit : ∀ v written, (Block.array element inner p).emit v = .ofBytes written ↔
      element.check = .ok () ∧ ∃ items tail, v.lookup p = some (.array items) ∧
        written = Wire.varint items.length ++ tail ∧ body items = .ofBytes tail)
    (hbody : ∀ items others, List.Forall₂ R items others → Follows lenient (body items) (body others)) :
    Follows lenient ((Block.array element inner p).emit x) ((Block.array element inner p).emit y) := by
  intro written hw
  obtain ⟨hc, items, tail, hx, rfl, htail⟩ := (hemit x written).mp hw
  have hslot := hR.lookup h p
  rw [hx] at hslot
  obtain ⟨b, hy, hab⟩ := rel_of_some hslot
  rcases hR.elements hab with ⟨others, rfl, hitems⟩ | ⟨hl, hno⟩
  · rcases hbody items others hitems tail htail with htail' | ⟨hl, hfail⟩
    · exact .inl ((hemit ..).mpr ⟨hc, others, tail, hy, by rw [hitems.length_eq], htail'⟩)
    · refine .inr ⟨hl, fun other hother => ?_⟩
      obtain ⟨-, found, tail', hfound, -, htail'⟩ := (hemit ..).mp hother
      cases hy.symm.trans hfound
      exact hfail tail' htail'
  · refine .inr ⟨hl, fun other hother => ?_⟩
    obtain ⟨-, found, -, hfound, -⟩ := (hemit ..).mp hother
    cases hy.symm.trans hfound
    exact hno found rfl

theorem follows_array {x y : Value} {inner : Program} (h : R x y)
    (ih : ∀ a b, R a b → Follows lenient (Block.emitAll inner a) (Block.emitAll inner b)) :
    Follows lenient ((Block.array element inner p).emit x) ((Block.array element inner p).emit y) := by
  cases element with
  | object =>
    exact hR.follows_counted h (fun items => .concat (items.map fun item => Block.emitAll inner item))
      (fun _ _ => Block.emit_array_ok) fun _ _ hitems => follows_concat hitems ih
  | scalar kind =>
    exact hR.follows_counted h (emitElements kind p) (fun _ _ => Block.emit_array_ok)
      fun _ _ hitems => hR.follows_emitElements hitems kind p

omit hR in
theorem follows_option {x y tag other : Value} {options : List (Tag × Program)}
    (hm : ∀ option ∈ options, option.1.matchesValue tag = option.1.matchesValue other)
    (ih : ∀ option ∈ options, Follows lenient (Block.emitAll option.2 x) (Block.emitAll option.2 y)) :
    Follows lenient (Block.emitOption options tag x) (Block.emitOption options other y) := by
  induction options with
  | nil => exact Follows.refl _
  | cons option rest ihrest =>
    obtain ⟨hfirst, hrest⟩ := List.forall_mem_cons.mp hm
    rw [Block.emitOption, Block.emitOption, hfirst]
    split
    · exact ih option (List.mem_cons_self ..)
    · exact ihrest hrest fun o ho => ih o (List.mem_cons_of_mem _ ho)

theorem follows_discriminator {x y : Value} (h : R x y)
    (ht : test (.discriminator kind options field p))
    (ih : ∀ option ∈ options, Follows lenient (Block.emitAll option.2 x) (Block.emitAll option.2 y)) :
    Follows lenient ((Block.discriminator kind options field p).emit x)
      ((Block.discriminator kind options field p).emit y) := by
  intro written hw
  obtain ⟨hpresent, head, tail, hhead, htail, rfl⟩ := Block.emit_discriminator_ok.mp hw
  -- what the options write follows once both sides agree on the tags
  have hoptions : kind.encode? (y.tagAt p field) = some head →
      (Block.tellsPresence field = false → y.lookup (p.child field) ≠ none) →
      (∀ option ∈ options, option.1.matchesValue (x.tagAt p field)
        = option.1.matchesValue (y.tagAt p field)) →
      (Block.discriminator kind options field p).emit y = .ofBytes (head ++ tail) ∨
        lenient ∧ ∀ other, (Block.discriminator kind options field p).emit y ≠ .ofBytes other := by
    intro henc hthere hm
    rcases follows_option hm ih tail htail with htail' | ⟨hl, hfail⟩
    · exact .inl (Block.emit_discriminator_ok.mpr ⟨hthere, head, tail, henc, htail', rfl⟩)
    · refine .inr ⟨hl, fun other hother => ?_⟩
      obtain ⟨-, _, tail', -, htail', -⟩ := Block.emit_discriminator_ok.mp hother
      exact hfail tail' htail'
  cases hf : Block.tellsPresence field with
  | true =>
    have htag : x.tagAt p field = y.tagAt p field := by
      rw [Value.tagAt, Value.tagAt, hf, hR.presenceTag_eq (hR.lookup h p)]
      rfl
    exact hoptions (htag ▸ hhead) (by simp [hf]) fun _ _ => by rw [htag]
  | false =>
    obtain ⟨a, ha⟩ := Option.ne_none_iff_exists'.mp (hpresent hf)
    have hslot := hR.lookup h (p.child field)
    rw [ha] at hslot
    obtain ⟨b, hb, hab⟩ := rel_of_some hslot
    have hx : x.tagAt p field = a := by simp [Value.tagAt, hf, Value.held_of_lookup ha]
    have hy : y.tagAt p field = b := by simp [Value.tagAt, hf, Value.held_of_lookup hb]
    rw [hx] at hhead
    rcases hR.encode hab hhead with henc | ⟨hl, hnone⟩
    · refine hoptions (hy ▸ henc) (by simp [hb]) ?_
      rw [hx, hy]
      exact hR.tags ht hf hab hhead henc
    · refine .inr ⟨hl, fun other hother => ?_⟩
      obtain ⟨-, _, _, henc, -, -⟩ := Block.emit_discriminator_ok.mp hother
      rw [hy, hnone] at henc
      cases henc

omit hR in
theorem follows_emitAll {x y : Value}
    (h : ∀ block ∈ blocks, Follows lenient (block.emit x) (block.emit y)) :
    Follows lenient (Block.emitAll blocks x) (Block.emitAll blocks y) := by
  induction blocks with
  | nil => exact Follows.refl _
  | cons block rest ih =>
    exact (h block (List.mem_cons_self ..)).append (ih fun b hb => h b (List.mem_cons_of_mem _ hb))

/-- What a block writes for a document it writes for each one that corresponds to it. -/
theorem follows {block : Block} (hb : block.Every test) {x y : Value} (h : R x y) :
    Follows lenient (block.emit x) (block.emit y) := by
  -- the elements of an array are other documents, so the induction is over all of them
  induction hb generalizing x y with
  | primitive => exact hR.follows_primitive h
  | array _ _ ih =>
    exact hR.follows_array h fun a b hab =>
      follows_emitAll fun block hblock => ih block hblock hab
  | discriminator ht _ ih =>
    exact hR.follows_discriminator h ht fun option ho =>
      follows_emitAll fun block hblock => ih option ho block hblock h

end Pairing

end Positional
