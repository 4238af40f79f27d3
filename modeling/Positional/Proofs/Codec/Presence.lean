import Positional.Proofs.Codec.Canonical
import Positional.Proofs.Schema.Fields

/-!
# What becomes of an optional field

An optional or nullable field that was absent or null is so again after writing and reading. One that
was present is present again exactly when its schema shows, for the value that it held: a present
object that leaves no assignment comes back absent, and a present slot around null comes back null.
-/

namespace Positional

open Value (Reflects)

/-- A schema at a path has a slot around another one at a path, through objects and slots. -/
inductive SlotAt : Schema → Path → Path → Schema → Prop
  | here {inner : Schema} (hi : schema.slotOf? = some inner) : SlotAt schema p p inner
  | field {inner : Schema} (hf : (name, field) ∈ fields) (h : SlotAt field (p.child name) q inner) :
      SlotAt (.object fields) p q inner
  | slot {inner : Schema} (hi : schema.slotOf? = some wrapped) (h : SlotAt wrapped p q inner) :
      SlotAt schema p q inner
  | refined {inner : Schema} (ha : Schema.isBytesCheck accepts = false) (h : SlotAt schema p q inner) :
      SlotAt (.refined accepts schema) p q inner

theorem SlotAt.below_path {inner : Schema} (h : SlotAt schema p q inner) : p <+: q := by
  induction h with
  | here => exact List.prefix_rfl
  | field _ _ ih => exact (Path.below_child ..).trans ih
  | slot _ _ ih => exact ih
  | refined _ _ ih => exact ih

namespace Compiled

theorem emits_part {parts : List FieldFrame} (hp : part ∈ parts)
    (h : Block.emitAll (Frame.join (parts.map (·.frame))).blocks x = .ofBytes written) :
    ∃ written, Block.emitAll part.frame.blocks x = .ofBytes written := by
  have hall := Block.emitAll_succeeds.mp ⟨written, h⟩
  exact Block.emitAll_succeeds.mpr fun block hb =>
    hall block (Frame.mem_join.mpr ⟨part, hp, hb⟩)

theorem emits_wrapped (hx : x.lookup path = some v) (hv : v ≠ .null)
    (h : Block.emitAll [.ofSlot wrapped path] x = .ofBytes written) :
    ∃ written, Block.emitAll wrapped x = .ofBytes written := by
  rw [Block.emitAll_singleton, Block.emit_ofSlot_present hx hv] at h
  obtain ⟨head, tail, -, htail, -⟩ := Emission.append_eq_ofBytes.mp h
  exact ⟨tail, htail⟩

theorem presence_here {inner : Schema} (hi : schema.slotOf? = some inner) (h : Compiled schema p frame)
    (hn : schema.wellNamed = true) (hw : Block.emitAll frame.blocks x = .ofBytes written)
    (hy : Reflects y p (Block.echoAll frame.blocks x)) (hp : p ≠ []) :
    presenceTag (y.lookup p) = presenceTag (x.lookup p) ↔
      ∀ v, x.lookup p = some v → v ≠ .null → inner.shows v = true := by
  obtain ⟨wrapped, hwrapped, rfl⟩ := slot_inv hi h
  rw [Frame.blocks_trail] at hw hy
  rw [Block.echoAll_singleton] at hy
  rw [Schema.wellNamed_slot hi] at hn
  rcases slot_cases (x.lookup p) with hx | hx | ⟨v, hx, hv⟩
  · rw [Block.echo_ofSlot_absent hx] at hy
    simp [hy.absent List.prefix_rfl hp, hx]
  · rw [Block.echo_ofSlot_null hx] at hy
    simp [hy.holds _ (List.mem_singleton_self _), hx]
  · rw [Block.echo_ofSlot_present hx hv] at hy
    obtain ⟨_, hbody⟩ := emits_wrapped hx hv hw
    have hshows := hwrapped.shows_iff hn hbody hx hv
    have hgoal : (∀ u, x.lookup p = some u → u ≠ .null → inner.shows u = true) ↔
        inner.shows v = true := by simp [hx, hv]
    rw [hgoal, hshows, hx, presenceTag_present hv]
    constructor
    · intro htag
      refine Classical.byContradiction fun hno => ?_
      have hall : ∀ write ∈ Block.echoAll wrapped.blocks x, write = (p, .null) := fun write hw =>
        Classical.byContradiction fun hne => hno ⟨write, hw, hne⟩
      cases hecho : Block.echoAll wrapped.blocks x with
      | nil =>
        rw [hecho] at hy
        rw [hy.absent List.prefix_rfl hp] at htag
        cases htag
      | cons write rest =>
        have hmem : write ∈ Block.echoAll wrapped.blocks x := hecho ▸ List.mem_cons_self ..
        have hnull := hy.holds write hmem
        rw [hall write hmem] at hnull
        rw [hnull] at htag
        cases htag
    · rintro ⟨write, hw, hne⟩
      obtain ⟨u, hu, hunull⟩ := hy.present hw (hwrapped.below_echo hn write hw) hne
      rw [hu, presenceTag_present hunull]

/-- Reading back keeps the state of a slot, unless it was present and does not show. -/
theorem presence_iff {inner : Schema} (hs : SlotAt schema p q inner) (h : Compiled schema p frame)
    (hn : schema.wellNamed = true) (hw : Block.emitAll frame.blocks x = .ofBytes written)
    (hy : Reflects y p (Block.echoAll frame.blocks x)) (hq : q ≠ []) :
    presenceTag (y.lookup q) = presenceTag (x.lookup q) ↔
      ∀ v, x.lookup q = some v → v ≠ .null → inner.shows v = true := by
  induction hs generalizing frame written with
  | here hi => exact presence_here hi h hn hw hy hq
  | field hf hs ih =>
    obtain ⟨parts, rfl, rfl, hparts⟩ := h.object_inv
    obtain ⟨part, hp, hpart⟩ := List.mem_map.mp hf
    obtain ⟨rfl, rfl⟩ := Prod.mk.inj hpart
    obtain ⟨_, hbody⟩ := emits_part hp hw
    exact ih (hparts part hp) ((Schema.wellNamed_fields.mp hn).2 part hp) hbody
      (reflects_field hn hparts hp hy) hq
  | slot hi hs ih =>
    rename_i wrapped p q schema inner
    obtain ⟨frame, hframe, rfl⟩ := slot_inv hi h
    rw [Frame.blocks_trail] at hw hy
    rw [Block.echoAll_singleton] at hy
    rw [Schema.wellNamed_slot hi] at hn
    rcases slot_cases (x.lookup p) with hx | hx | ⟨v, hx, hv⟩
    · have hxq := Value.lookup_none_below hx hs.below_path
      rw [Block.echo_ofSlot_absent hx] at hy
      simp [hy.absent hs.below_path hq, hxq]
    · rw [Block.echo_ofSlot_null hx] at hy
      have hyp := hy.holds _ (List.mem_singleton_self _)
      have hsame : y.lookup q = x.lookup q := Value.lookup_congr (hyp.trans hx.symm) hs.below_path
      have hnull : ∀ v, x.lookup q = some v → v = .null := by
        intro v hv
        by_cases hqp : q = p
        · rw [hqp, hx] at hv
          exact (Option.some.inj hv).symm
        · obtain ⟨fields, hobject⟩ := Value.object_of_lookup_below hv hs.below_path hqp
          cases hx.symm.trans hobject
      simp only [hsame, true_iff]
      exact fun v hv hne => absurd (hnull v hv) hne
    · rw [Block.echo_ofSlot_present hx hv] at hy
      obtain ⟨_, hbody⟩ := emits_wrapped hx hv hw
      exact ih hframe hn hbody hy hq
  | refined ha hs ih =>
    rw [Schema.wellNamed_refined ha] at hn
    exact ih (refined_inv ha h) hn hw hy hq

end Compiled

namespace Schema

/-- Writing and reading keep the state of an optional or nullable field, below any nesting of objects
and other such fields, exactly when the field was absent or null or its schema shows. -/
theorem presence_decode_iff {schema inner : Schema} (hc : schema.compile = .ok program)
    (hn : schema.wellNamed = true) (hs : SlotAt schema [] q inner) (hq : q ≠ [])
    (hx : program.encode x = .ok bytes) (hy : program.decode options bytes = .ok y) :
    presenceTag (y.lookup q) = presenceTag (x.lookup q) ↔
      ∀ v, x.lookup q = some v → v ≠ .null → inner.shows v = true := by
  obtain ⟨frame, hf, rfl⟩ := compile_ok hc
  have hw := hf.wellLaid_plain hn
  rw [Program.eq_echo_of_decode hw.laid hx hy]
  exact hf.presence_iff hs hn (Program.encode_ok.mp hx)
    (Value.reflects_assignAll (Value.blank_empty []) (spread_echoAll hw.laid hw.spread)) hq

theorem presence_decode_text :
    presenceTag (Value.lookup (.object [("b", .object [("c", .text "")])]) ["b"]) = 1 := by
  have hc : (object [("b", optional (object [("c", optional string)]))]).compile
      = .ok [.ofSlot [.ofSlot [.primitive .string ["b", "c"]] ["b", "c"]] ["b"]] := rfl
  have hs : SlotAt (object [("b", optional (object [("c", optional string)]))]) [] ["b"]
      (object [("c", optional string)]) := .field (List.mem_singleton_self _) (.here rfl)
  have hx : Program.encode [.ofSlot [.ofSlot [.primitive .string ["b", "c"]] ["b", "c"]] ["b"]]
      (.object [("b", .object [("c", .text ""), ("d", .null)])]) = .ok [1, 1, 0] :=
    Program.encode_ok.mpr (by decide +kernel)
  have hy : Program.decode [.ofSlot [.ofSlot [.primitive .string ["b", "c"]] ["b", "c"]] ["b"]]
      .exact [1, 1, 0] = .ok (.object [("b", .object [("c", .text "")])]) := rfl
  refine (presence_decode_iff hc rfl hs (by decide) hx hy).mpr ?_
  intro v hv _
  cases hv
  rfl

/-- An object whose fields are all absent is present in the document and absent in what is read. -/
theorem presence_lost : ∃ program y,
    (object [("b", optional (object [("c", optional string)]))]).compile = .ok program ∧
      program.encode (.object [("b", .object [])]) = .ok [1, 0] ∧
      program.decode .exact [1, 0] = .ok y ∧
      presenceTag (Value.lookup (.object [("b", .object [])]) ["b"]) = 1 ∧
      presenceTag (y.lookup ["b"]) = 0 :=
  ⟨_, _, rfl, Program.encode_ok.mpr (by decide +kernel), rfl, rfl, rfl⟩

end Schema

end Positional
