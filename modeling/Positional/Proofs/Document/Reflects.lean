import Positional.Proofs.Document.Lens

/-!
# What a document holds below a path

A document reflects assignments below a path when each of them is kept and nothing else is found
there. A document built by assignments pairwise apart reflects them at the root, and below any path
it reflects those that are there.
-/

namespace Positional

namespace Value

structure Reflects (y : Value) (p : Path) (writes : List (Path × Value)) : Prop where
  holds : ∀ write ∈ writes, y.lookup write.1 = some write.2
  only : ∀ q, p <+: q → q ≠ [] → (∀ write ∈ writes, Path.Apart write.1 q) → y.lookup q = none

theorem reflects_assignAll {r : Value} {writes : List (Path × Value)} (hr : Blank r p)
    (hs : writes.Pairwise fun a b => Path.Apart a.1 b.1) : Reflects (r.assignAll writes) p writes where
  holds _ hw := lookup_assignAll_of_mem r hs hw
  only q hp hq ha := (lookup_assignAll_of_apart r ha).trans (hr q hp hq)

/-- Below a path further down, what stands apart from it does not matter. -/
theorem Reflects.narrow {y : Value} {writes some : List (Path × Value)} (h : Reflects y p writes)
    (hp : p <+: p') (hin : ∀ write ∈ some, write ∈ writes)
    (hout : ∀ write ∈ writes, write ∈ some ∨ Path.Apart write.1 p') : Reflects y p' some where
  holds write hw := h.holds write (hin write hw)
  only q hq hne ha := by
    refine h.only q (hp.trans hq) hne fun write hw => ?_
    rcases hout write hw with hsome | happ
    · exact ha write hsome
    · exact (happ.symm.below hq).symm

theorem Reflects.absent {y : Value} (h : Reflects y p []) (hq : p <+: q) (hne : q ≠ []) :
    y.lookup q = none :=
  h.only q hq hne fun _ hw => absurd hw List.not_mem_nil

theorem Reflects.present {y : Value} {writes : List (Path × Value)} (h : Reflects y p writes)
    (hw : write ∈ writes) (hp : p <+: write.1) (hne : write ≠ (p, .null)) :
    ∃ v, y.lookup p = some v ∧ v ≠ .null := by
  have hkept := h.holds write hw
  by_cases hq : write.1 = p
  · refine ⟨write.2, hq ▸ hkept, fun hnull => hne (Prod.ext hq hnull)⟩
  · obtain ⟨fields, hfields⟩ := object_of_lookup_below hkept hp hq
    exact ⟨.object fields, hfields, by simp⟩

end Value

end Positional
