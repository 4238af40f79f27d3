import Positional.Proofs.Codec.Delimited
import Positional.Proofs.Program.Extent
import Positional.Proofs.Program.Failures

/-!
# Limits on decoding

Limits bound the arrays of what is decoded, for every program. They refuse and do nothing else: a
document that is decoded within limits is decoded alike within wider ones, and depth is complained of
only where the program nests arrays of objects deeper than allowed.
-/

namespace Positional

open Reader

-- ---------------------------------------------------------------------------
-- Wider limits
-- ---------------------------------------------------------------------------

namespace Limits

/-- Both limits are at most the wider ones. -/
structure Below (limits wider : Limits) : Prop where
  arrayElements : limits.arrayElements ≤ wider.arrayElements
  depth : limits.depth ≤ wider.depth

end Limits

variable {limits wider : Limits}

theorem Reader.YieldsAs.timesAfter {first second : Reader α} (h : YieldsAs first second) :
    (done : List α) → (count : Nat) →
    YieldsAs (timesAfter first done count) (timesAfter second done count)
  | _, 0 => .refl _
  | done, count + 1 => h.seq fun item => YieldsAs.timesAfter h (item :: done) count

theorem Reader.YieldsAs.guard {first second : Reader α} [Decidable c] [Decidable d]
    (h : YieldsAs first second) (hcd : d → c) (error error' : Error) :
    YieldsAs (if c then throw error else first) (if d then throw error' else second) := by
  by_cases hc : c
  · rw [if_pos hc]
    exact .of_throw _ _
  · rw [if_neg hc, if_neg (mt hcd hc)]
    exact h

theorem Limits.Below.elementCount (h : limits.Below wider) :
    YieldsAs (elementCount limits) (elementCount wider) := by
  refine .bind varint fun raw => ?_
  exact .guard (.refl _) (Nat.lt_of_le_of_lt h.arrayElements) _ _

namespace Block

mutual

/-- What is read within limits is read alike within wider ones. -/
theorem yieldsAs_read (h : limits.Below wider) : (block : Block) → (depth : Nat) →
    YieldsAs (block.read limits depth) (block.read wider depth)
  | .primitive _ _, _ => .refl _
  | .array .object inner _, depth => by
    refine h.elementCount.seq fun count => ?_
    have hitem := (yieldsAs_readAll h inner (depth + 1)).map Value.ofWrites
    exact ((hitem.timesAfter [] count).map _).guard (Nat.lt_of_le_of_lt h.depth) _ _
  | .array (.scalar kind) _ _, _ =>
    .bind (kind.check : Reader Unit) fun _ => h.elementCount.seq fun _ => .refl _
  | .discriminator kind options _ _, depth =>
    .bind kind.read fun tag => (yieldsAs_readOption h options tag depth).map _

theorem yieldsAs_readAll (h : limits.Below wider) : (blocks : List Block) → (depth : Nat) →
    YieldsAs (readAll limits blocks depth) (readAll wider blocks depth)
  | [], _ => .refl _
  | block :: rest, depth =>
    (yieldsAs_read h block depth).seq fun _ => (yieldsAs_readAll h rest depth).map _

theorem yieldsAs_readOption (h : limits.Below wider) : (options : List (Tag × List Block)) →
    (tag : Value) → (depth : Nat) →
    YieldsAs (readOption limits options tag depth) (readOption wider options tag depth)
  | [], _, _ => .refl _
  | (_, body) :: rest, tag, depth =>
    .ite (yieldsAs_readAll h body depth) (yieldsAs_readOption h rest tag depth)

end

end Block

namespace Program

-- ---------------------------------------------------------------------------
-- Whole runs
-- ---------------------------------------------------------------------------

theorem yieldsAs_read {options wider : DecodeOptions} (h : options.toLimits.Below wider.toLimits)
    (hs : wider.strict = true → options.strict = true) (program : Program) (root : Value) :
    YieldsAs (program.read options root) (program.read wider root) := by
  intro cursor value last hrun
  obtain ⟨writes, hread, hrest, rfl⟩ := read_ok.mp hrun
  exact read_ok.mpr ⟨writes, Block.yieldsAs_readAll h program 0 _ _ _ hread,
    fun hstrict => hrest (hs hstrict), rfl⟩

/-- A run complains of the depth only if the program is deeper than the limit, which it names. -/
theorem failsAs_read (program : Program) (options : DecodeOptions) (root : Value) :
    FailsAs (Block.DepthBelow options.toLimits (Block.recordNestingAll program))
      (program.read options root) := by
  have hread := Block.failsAs_readAll options.toLimits program 0
  rw [Nat.zero_add] at hread
  exact hread.bind fun writes => failsAs_get.bind fun cursor =>
    .ite (failsAs_throw fun _ heq => nomatch heq) (failsAs_pure _)

/-- The limits hold of every run of every program. Over an empty object no array has more elements
than allowed, arrays nest one deeper than arrays of objects may, and all arrays together have no more
elements than a full array for each byte. Depth is complained of only if the program nests arrays of
objects deeper than allowed. Wider limits change nothing where a run succeeds. -/
theorem read_limits (program : Program) (options : DecodeOptions) :
    (∀ buffer value last,
      (program.read options (.object [])).run (Cursor.start buffer) = (.ok value, last) →
      value.every (Value.shortArray options.arrayElements) = true ∧
        value.nesting ≤ options.depth + 1 ∧
        value.elementTotal ≤ last.pos * options.arrayElements) ∧
    (∀ root cursor limit last,
      (program.read options root).run cursor = (.error (.depthExceeded limit), last) →
      limit = options.depth ∧ options.depth < Block.recordNestingAll program) ∧
    ∀ wider : DecodeOptions, options.arrayElements ≤ wider.arrayElements →
      options.depth ≤ wider.depth → (wider.strict = true → options.strict = true) →
      ∀ root cursor value last, (program.read options root).run cursor = (.ok value, last) →
        (program.read wider root).run cursor = (.ok value, last) := by
  refine ⟨fun buffer value last hrun => ?_, fun root cursor limit last hrun => ?_,
    fun wider hm hd hs root => ?_⟩
  · obtain ⟨writes, hread, -, rfl⟩ := read_ok.mp hrun
    have hdocument := (Block.boundedAll_of_read program hread).document
    have hpaid := hdocument.paid
    simp only [Value.totalItems, Cursor.start, Nat.zero_mul, Nat.add_zero] at hpaid
    exact ⟨hdocument.short _ List.mem_cons_self, hdocument.nested _ List.mem_cons_self, hpaid⟩
  · exact failsAs_read program options root cursor _ last hrun limit rfl
  · exact yieldsAs_read ⟨hm, hd⟩ hs program root

/-- All bounds are reached: three arrays of three nulls in an array, from four bytes. At depth zero
the same program is refused. -/
theorem read_limits_nulls :
    let program : Program := [.array .object [.array (.scalar .null) [] []] ["l"]]
    let nulls : Value := .array [.null, .null, .null]
    let value : Value := .object [("l", .array [nulls, nulls, nulls])]
    let options : DecodeOptions := { arrayElements := 3, depth := 1 }
    value.every (Value.shortArray options.arrayElements) = true ∧
      value.nesting = options.depth + 1 ∧ value.elementTotal = 4 * options.arrayElements ∧
      0 < Block.recordNestingAll program ∧
      (program.read {} (.object [])).run (Cursor.start [3, 3, 3, 3, 7]) = (.ok value, ⟨4, [7]⟩) := by
  intro program nulls value options
  have hrun : (program.read options (.object [])).run (Cursor.start [3, 3, 3, 3, 7])
      = (.ok value, ⟨4, [7]⟩) := rfl
  have hdeep : (program.read { options with depth := 0 } (.object [])).run (Cursor.start [3, 3])
      = (.error (.depthExceeded 0), ⟨1, [3]⟩) := rfl
  obtain ⟨hwithin, -, hwider⟩ := read_limits program options
  obtain ⟨-, hdepth, -⟩ := read_limits program { options with depth := 0 }
  obtain ⟨hshort, hnested, hpaid⟩ := hwithin _ _ _ hrun
  exact ⟨hshort, Nat.le_antisymm hnested (by decide), Nat.le_antisymm hpaid (by decide),
    (hdepth _ _ _ _ hdeep).2, hwider {} (by decide) (by decide) (by decide) _ _ _ _ hrun⟩

end Program

end Positional
