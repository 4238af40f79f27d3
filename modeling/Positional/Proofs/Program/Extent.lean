import Positional.Proofs.Document.Extent
import Positional.Proofs.Program.Forward
import Positional.Proofs.Program.Normal
import Positional.Proofs.Program.Yields

/-!
# The extent of what is read

Every array that is read takes at least one byte, that of its count, and has no more elements than
the limit. So the bytes that a run takes pay for the elements of all its arrays, a full array for
each byte, even where the elements themselves take no byte at all.
-/

namespace Positional

/-- What values read between two offsets are like: no array is longer than the limit, arrays nest no
deeper than the bound, and the bytes between pay for the elements of all arrays. -/
structure Bounded (limits : Limits) (bound start stop : Nat) (values : List Value) : Prop where
  short : ∀ value ∈ values, value.every (Value.shortArray limits.arrayElements) = true
  nested : ∀ value ∈ values, value.nesting ≤ bound
  paid : Value.totalItems values + start * limits.arrayElements ≤ stop * limits.arrayElements

theorem Kind.extent_of_holds {kind : Kind} (h : kind.holds value = true) (limit : Nat) :
    value.every (Value.shortArray limit) = true ∧ value.nesting = 0 ∧ value.elementTotal = 0 := by
  cases value with
  | array items => cases kind <;> cases h
  | object xs => cases kind <;> cases h
  | _ => exact ⟨rfl, rfl, rfl⟩

theorem Kind.check_ok (kind : Kind)
    (h : (kind.check : Reader Unit).run cursor = (.ok unit, last)) : cursor = last := by
  cases kind with
  | unknown name => exact absurd h Reader.throw_ok
  | _ => exact (Reader.pure_ok.mp h).2

namespace Bounded

theorem scalars {kind : Kind} (h : ∀ value ∈ values, kind.holds value = true)
    (hle : start ≤ stop) : Bounded limits bound start stop values where
  short value hv := (Kind.extent_of_holds (h value hv) _).1
  nested value hv := (Kind.extent_of_holds (h value hv) 0).2.1 ▸ Nat.zero_le _
  paid := by
    rw [Value.totalItems_eq_zero fun value hv => (Kind.extent_of_holds (h value hv) 0).2.2,
      Nat.zero_add]
    exact Nat.mul_le_mul_right _ hle

theorem nil (hle : start ≤ stop) : Bounded limits bound start stop [] where
  short _ hv := absurd hv List.not_mem_nil
  nested _ hv := absurd hv List.not_mem_nil
  paid := by simpa [Value.totalItems] using Nat.mul_le_mul_right _ hle

theorem append (h : Bounded limits bound start mid first)
    (h' : Bounded limits bound mid stop second) :
    Bounded limits bound start stop (first ++ second) where
  short := List.forall_mem_append.mpr ⟨h.short, h'.short⟩
  nested := List.forall_mem_append.mpr ⟨h.nested, h'.nested⟩
  paid := by
    have hfirst := h.paid
    have hsecond := h'.paid
    rw [Value.totalItems_append]
    omega

/-- The byte of the count pays for the elements of the array itself. -/
theorem array (h : Bounded limits bound mid stop items) (hlt : start < mid)
    (hlen : items.length ≤ limits.arrayElements) :
    Bounded limits (bound + 1) start stop [.array items] where
  short := by simpa [Value.shortArray, hlen] using h.short
  nested := by simpa [Value.nesting, Value.nestingItems_le] using h.nested
  paid := by
    have hcount :
        start * limits.arrayElements + limits.arrayElements ≤ mid * limits.arrayElements := by
      rw [← Nat.succ_mul]
      exact Nat.mul_le_mul_right _ hlt
    have hitems := h.paid
    simp only [Value.totalItems, Value.elementTotal]
    omega

theorem document {writes : Writes} (h : Bounded limits bound start stop (writes.map (·.2))) :
    Bounded limits bound start stop [.ofWrites writes] where
  short := by
    have hfields : Value.Fieldwise
        fun value => value.every (Value.shortArray limits.arrayElements) = true :=
      Value.fieldwise_every (fun _ => rfl) rfl
    exact List.forall_mem_singleton.mpr (hfields.assignAll h.short rfl)
  nested := List.forall_mem_singleton.mpr
    ((Value.fieldwise_nesting bound).assignAll h.nested (Nat.zero_le _))
  paid := by
    have hbuilt := Value.elementTotal_assignAll_le (.object []) writes
    have hpaid := h.paid
    simp only [Value.totalItems, Value.ofWrites, Value.elementTotal, Value.totalFields] at hbuilt ⊢
    omega

end Bounded

namespace Reader

theorem elementCount_paid (h : (elementCount limits).run cursor = (.ok count, last)) :
    count ≤ limits.arrayElements ∧ cursor.pos < last.pos := by
  obtain ⟨hadmits, hlen⟩ := elementCount_ok h
  have hpos := Wire.length_varint_pos count
  exact ⟨hadmits.1, by omega⟩

end Reader

namespace Block

theorem bounded_flat {inner : Program} {path : Path}
    (h : ((array (.scalar kind) inner path).read limits depth).run cursor = (.ok writes, last)) :
    Bounded limits (bound + 1) cursor.pos last.pos (writes.map (·.2)) := by
  rw [read] at h
  obtain ⟨_, start, hcheck, h⟩ := Reader.bind_ok.mp h
  obtain rfl := kind.check_ok hcheck
  obtain ⟨count, mid, hcount, h⟩ := Reader.bind_ok.mp h
  obtain ⟨items, mid', hitems, h⟩ := Reader.bind_ok.mp h
  obtain ⟨rfl, rfl⟩ := Reader.pure_ok.mp h
  obtain ⟨hle, hlt⟩ := Reader.elementCount_paid hcount
  obtain ⟨rfl, -⟩ := Reader.elements_ok path hitems
  have hscalars : Bounded limits bound mid.pos mid'.pos items :=
    .scalars (Reader.elements_hold hitems)
      ((Reader.composed_elements kind _).forward.pos_le hitems)
  exact hscalars.array hlt hle

/-- An array of objects is bounded when the documents of its elements are, one step further down. -/
theorem bounded_records {inner : Program} {path : Path}
    (hinner : ∀ {cursor writes last},
      (readAll limits inner (depth + 1)).run cursor = (.ok writes, last) →
      Bounded limits (limits.depth - (depth + 1) + 1) cursor.pos last.pos (writes.map (·.2)))
    (h : ((array .object inner path).read limits depth).run cursor = (.ok writes, last)) :
    Bounded limits (limits.depth - depth + 1) cursor.pos last.pos (writes.map (·.2)) := by
  rw [read] at h
  obtain ⟨count, mid, hcount, h⟩ := Reader.bind_ok.mp h
  obtain ⟨hle, hlt⟩ := Reader.elementCount_paid hcount
  split at h
  · exact absurd h Reader.throw_ok
  · rename_i hdepth
    obtain ⟨all, mid', hitems, h⟩ := Reader.bind_ok.mp h
    obtain ⟨rfl, rfl⟩ := Reader.pure_ok.mp h
    have hitem : ∀ {cursor item last},
        (Value.ofWrites <$> readAll limits inner (depth + 1)).run cursor = (.ok item, last) →
          Bounded limits (limits.depth - (depth + 1) + 1) cursor.pos last.pos [item] := by
      intro cursor item last hrun
      obtain ⟨own, hown, rfl⟩ := Reader.map_ok.mp hrun
      exact (hinner hown).document
    obtain ⟨items, rfl, rfl, hbounded⟩ := Reader.timesAfter_induct
      (P := fun start stop items =>
        Bounded limits (limits.depth - (depth + 1) + 1) start.pos stop.pos items)
      (fun _ => .nil (Nat.le_refl _)) (fun hrun hrest => (hitem hrun).append hrest) hitems
    have hbelow : limits.depth - depth + 1 = limits.depth - (depth + 1) + 1 + 1 := by omega
    rw [hbelow]
    exact hbounded.array hlt hle

mutual

/-- What a block assigns is within the limits: below the depth at which it is read, arrays of objects
may go down to the greatest depth, and one flat array may be in the innermost. -/
theorem bounded_of_read : (block : Block) →
    (block.read limits depth).run cursor = (.ok writes, last) →
    Bounded limits (limits.depth - depth + 1) cursor.pos last.pos (writes.map (·.2))
  | .primitive kind path, h => by
    obtain ⟨value, mid, hvalue, h⟩ := Reader.bind_ok.mp h
    obtain ⟨rfl, rfl⟩ := Reader.pure_ok.mp h
    exact .scalars (List.forall_mem_singleton.mpr (Kind.holds_of_read hvalue))
      (kind.composed_read.forward.pos_le hvalue)
  | .array .object inner path, h => bounded_records (boundedAll_of_read inner) h
  | .array (.scalar kind) inner path, h => bounded_flat h
  | .discriminator kind options field path, h => by
    obtain ⟨tag, mid, htag, h⟩ := Reader.bind_ok.mp h
    obtain ⟨body, mid', hbody, h⟩ := Reader.bind_ok.mp h
    obtain ⟨rfl, rfl⟩ := Reader.pure_ok.mp h
    have htags : ∀ value ∈ (tagWrites path field tag).map (·.2), kind.holds value = true := by
      rw [tagWrites]
      split
      · simp
      · simpa using Kind.holds_of_read htag
    rw [List.map_append]
    exact (Bounded.scalars htags (kind.composed_read.forward.pos_le htag)).append
      (boundedOption_of_read options hbody)

theorem boundedAll_of_read : (blocks : List Block) →
    (readAll limits blocks depth).run cursor = (.ok writes, last) →
    Bounded limits (limits.depth - depth + 1) cursor.pos last.pos (writes.map (·.2))
  | [], h => by
    obtain ⟨rfl, rfl⟩ := Reader.pure_ok.mp h
    exact .nil (Nat.le_refl _)
  | block :: rest, h => by
    obtain ⟨first, mid, hfirst, h⟩ := Reader.bind_ok.mp h
    obtain ⟨others, mid', hothers, h⟩ := Reader.bind_ok.mp h
    obtain ⟨rfl, rfl⟩ := Reader.pure_ok.mp h
    rw [List.map_append]
    exact (bounded_of_read block hfirst).append (boundedAll_of_read rest hothers)

theorem boundedOption_of_read : (options : List (Tag × List Block)) →
    (readOption limits options tag depth).run cursor = (.ok writes, last) →
    Bounded limits (limits.depth - depth + 1) cursor.pos last.pos (writes.map (·.2))
  | [], h => by
    obtain ⟨rfl, rfl⟩ := Reader.pure_ok.mp h
    exact .nil (Nat.le_refl _)
  | (option, body) :: rest, h => by
    rw [readOption] at h
    split at h
    · exact boundedAll_of_read body h
    · exact boundedOption_of_read rest h

end

end Block

end Positional
