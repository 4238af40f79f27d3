import Positional.Proofs.Program.Composed
import Positional.Proofs.Wire.Returns

/-!
# Readers only move forward

Whatever the outcome of a run, what is left is the end of what there was, and the position has moved
by as much as is gone. So the position never decreases, and it always tells how much is left.
-/

namespace Positional

namespace Reader

/-- A run takes bytes from the front and counts them. -/
def Forward (reader : Reader α) : Prop :=
  ∀ cursor, ∃ taken, cursor.rest = taken ++ (reader.run cursor).2.rest ∧
    (reader.run cursor).2.pos = cursor.pos + taken.length

theorem Forward.of_eq {reader : Reader α} (h : ∀ cursor, (reader.run cursor).2 = cursor) :
    Forward reader := by
  intro cursor
  rw [h]
  exact ⟨[], rfl, rfl⟩

theorem Forward.pos_add_remaining {reader : Reader α} (h : Forward reader)
    (hrun : reader.run cursor = (outcome, last)) :
    last.pos + last.remaining = cursor.pos + cursor.remaining := by
  obtain ⟨taken, hrest, hpos⟩ := h cursor
  rw [hrun] at hrest hpos
  simp only at hrest hpos
  rw [Cursor.remaining, Cursor.remaining, hrest, hpos, List.length_append, Nat.add_assoc]

theorem Forward.pos_le {reader : Reader α} (h : Forward reader)
    (hrun : reader.run cursor = (outcome, last)) : cursor.pos ≤ last.pos := by
  obtain ⟨taken, -, hpos⟩ := h cursor
  rw [hrun] at hpos
  exact hpos ▸ Nat.le_add_right ..

theorem Forward.bind {reader : Reader α} {next : α → Reader β} (h : Forward reader)
    (hn : ∀ a, Forward (next a)) : Forward (reader >>= next) := by
  intro cursor
  obtain ⟨first, hrest, hpos⟩ := h cursor
  rcases hrun : reader.run cursor with ⟨error | a, after⟩
  · rw [run_bind_error hrun]
    rw [hrun] at hrest hpos
    exact ⟨first, hrest, hpos⟩
  · rw [run_bind_ok hrun]
    rw [hrun] at hrest hpos
    obtain ⟨second, hrest', hpos'⟩ := hn a after
    refine ⟨first ++ second, ?_, ?_⟩
    · rw [hrest, hrest', List.append_assoc]
    · rw [hpos', hpos, List.length_append, Nat.add_assoc]

theorem forward_byte : Forward byte := by
  intro ⟨pos, rest⟩
  cases rest with
  | nil => exact ⟨[], rfl, rfl⟩
  | cons first rest => exact ⟨[first], rfl, rfl⟩

theorem forward_exact (count : Nat) : Forward (exact count) := by
  intro ⟨pos, rest⟩
  by_cases h : count ≤ rest.length
  · rw [exact_ok.mpr ⟨h, rfl, rfl⟩]
    refine ⟨rest.take count, (List.take_append_drop ..).symm, ?_⟩
    rw [List.length_take, Nat.min_eq_left h]
  · rw [run_exact_short (Nat.lt_of_not_le h)]
    exact ⟨[], rfl, rfl⟩

theorem Composed.forward {α : Type} {reader : Reader α} (h : Composed reader) :
    Forward reader := by
  induction h with
  | pure | throw => exact .of_eq fun _ => rfl
  | position _ _ ih => exact Forward.bind (.of_eq fun _ => rfl) ih
  | byte => exact forward_byte
  | exact count => exact forward_exact count
  | bind _ _ ih ihn => exact ih.bind ihn

end Reader

theorem Block.forward_readAll (limits : Limits) (blocks : List Block) (depth : Nat) :
    Reader.Forward (readAll limits blocks depth) :=
  (composed_readAll limits blocks depth).forward

end Positional
