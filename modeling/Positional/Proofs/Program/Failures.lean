import Positional.Program.Reading
import Positional.Program.Writing
import Positional.Proofs.Wire.Returns
import Positional.Proofs.Wire.Scalars

/-!
# How runs can fail

A sequence of runs fails as one of its parts does. The readers of the wire have complaints of their
own (`Error.ofWire`), and a kind adds the one about its name. None is about the depth, so a run of
a program complains of that only where the program itself nests arrays of objects too deep. A writer
complains of the document (`Error.ofDocument`), or of a kind's name too.
-/

namespace Positional

namespace Error

def ofWire : Error → Bool
  | unexpectedEof .. | varintOverflow _ | invalidUtf8 _ | arrayTooLarge .. => true
  | _ => false

def ofDocument : Error → Bool
  | missingValue _ | typeMismatch .. => true
  | _ => false

end Error

-- ---------------------------------------------------------------------------
-- Readers
-- ---------------------------------------------------------------------------

namespace Reader

variable {allowed : Error → Prop}

def FailsAs (allowed : Error → Prop) (reader : Reader α) : Prop :=
  ∀ cursor error last, reader.run cursor = (.error error, last) → allowed error

theorem FailsAs.mono {other : Error → Prop} {reader : Reader α} (h : FailsAs allowed reader)
    (hsub : ∀ error, allowed error → other error) : FailsAs other reader :=
  fun cursor error last hrun => hsub error (h cursor error last hrun)

theorem failsAs_pure (a : α) : FailsAs allowed (pure a : Reader α) :=
  fun _ _ _ h => nomatch h

theorem failsAs_throw (h : allowed error) : FailsAs allowed (throw error : Reader α) := by
  intro cursor error' last hrun
  cases hrun
  exact h

theorem failsAs_get : FailsAs allowed (get : Reader Cursor) :=
  fun _ _ _ h => nomatch h

theorem failsAs_set (cursor : Cursor) : FailsAs allowed (set cursor : Reader PUnit) :=
  fun _ _ _ h => nomatch h

theorem failsAs_position : FailsAs allowed position :=
  fun _ _ _ h => nomatch h

theorem FailsAs.bind {reader : Reader α} {next : α → Reader β} (h : FailsAs allowed reader)
    (hn : ∀ a, FailsAs allowed (next a)) : FailsAs allowed (reader >>= next) := by
  intro cursor error last hrun
  rcases hfirst : reader.run cursor with ⟨failure | a, after⟩
  · rw [run_bind_error hfirst] at hrun
    cases hrun
    exact h cursor error _ hfirst
  · rw [run_bind_ok hfirst] at hrun
    exact hn a after error last hrun

theorem FailsAs.map {reader : Reader α} (h : FailsAs allowed reader) (f : α → β) :
    FailsAs allowed (do return f (← reader)) :=
  h.bind fun a => failsAs_pure (f a)

theorem FailsAs.ite {yes no : Reader α} [Decidable c] (hy : FailsAs allowed yes)
    (hn : FailsAs allowed no) : FailsAs allowed (if c then yes else no) := by
  split
  · exact hy
  · exact hn

theorem FailsAs.timesAfter {reader : Reader α} (h : FailsAs allowed reader) :
    (done : List α) → (count : Nat) → FailsAs allowed (timesAfter reader done count)
  | _, 0 => failsAs_pure _
  | done, count + 1 => h.bind fun item => FailsAs.timesAfter h (item :: done) count

-- ---------------------------------------------------------------------------
-- The complaints of the wire
-- ---------------------------------------------------------------------------

abbrev WireOnly (reader : Reader α) : Prop :=
  FailsAs (fun error => error.ofWire = true) reader

theorem wireOnly_exact (count : Nat) : WireOnly (exact count) :=
  failsAs_get.bind fun _ => .ite ((failsAs_set _).bind fun _ => failsAs_pure _) (failsAs_throw rfl)

theorem wireOnly_byte : WireOnly byte := by
  refine failsAs_get.bind fun cursor => ?_
  cases cursor.rest with
  | nil => exact failsAs_throw rfl
  | cons next rest => exact (failsAs_set _).bind fun _ => failsAs_pure _

theorem wireOnly_varintGroups (start : Nat) : (left : Nat) → WireOnly (varintGroups start left)
  | 0 => failsAs_throw rfl
  | left + 1 => wireOnly_byte.bind fun _ => .ite (failsAs_throw rfl) (.ite (failsAs_pure _)
      ((wireOnly_varintGroups start left).map _))

theorem wireOnly_varint : WireOnly varint :=
  failsAs_position.bind fun start => (wireOnly_varintGroups start 10).map _

theorem wireOnly_lengthPrefixed : WireOnly lengthPrefixed :=
  wireOnly_varint.bind fun _ => wireOnly_exact _

theorem wireOnly_text : WireOnly text := by
  refine wireOnly_lengthPrefixed.bind fun content => failsAs_position.bind fun stop => ?_
  cases Wire.ofUtf8? content with
  | some text => exact failsAs_pure text
  | none => exact failsAs_throw rfl

theorem wireOnly_packedFlags (count : Nat) : WireOnly (packedFlags count) :=
  failsAs_position.bind fun _ => wireOnly_lengthPrefixed.bind fun _ =>
    .ite (failsAs_throw rfl) (failsAs_pure _)

theorem wireOnly_elementCount (limits : Limits) : WireOnly (elementCount limits) :=
  wireOnly_varint.bind fun _ => .ite (failsAs_throw rfl) (failsAs_pure _)

end Reader

open Reader

def Kind.Complains (kind : Kind) (error : Error) : Prop :=
  error.ofWire = true ∨ kind.check = .error error

theorem Reader.WireOnly.complains {reader : Reader α} (h : WireOnly reader) (kind : Kind) :
    FailsAs kind.Complains reader :=
  h.mono fun _ => .inl

theorem Kind.complains_read (kind : Kind) : FailsAs kind.Complains kind.read := by
  cases kind with
  | string => exact (wireOnly_text.complains _).map _
  | float => exact (((wireOnly_exact 8).complains _).map _).map _
  | int => exact ((wireOnly_varint.complains _).map _).map _
  | uint => exact (wireOnly_varint.complains _).map _
  | boolean => exact ((wireOnly_varint.complains _).map _).map _
  | date => exact (((wireOnly_exact 8).complains _).map _).map _
  | buffer => exact (wireOnly_lengthPrefixed.complains _).map _
  | null => exact failsAs_pure _
  | unknown name => exact failsAs_throw (.inr rfl)

theorem Kind.complains_check (kind : Kind) : FailsAs kind.Complains (kind.check : Reader Unit) := by
  cases kind with
  | unknown name => exact failsAs_throw (.inr rfl)
  | _ => exact failsAs_pure _

theorem Reader.complains_elements (kind : Kind) (count : Nat) :
    FailsAs kind.Complains (elements kind count) := by
  cases kind with
  | boolean => exact ((wireOnly_packedFlags count).complains _).map _
  | _ => exact (Kind.complains_read _).timesAfter [] count

namespace Block

-- ---------------------------------------------------------------------------
-- The depth of a program
-- ---------------------------------------------------------------------------

mutual

/-- How deep a block nests arrays of objects, through the options of discriminators. -/
def recordNesting : Block → Nat
  | .primitive _ _ => 0
  | .array .object inner _ => recordNestingAll inner + 1
  | .array (.scalar _) _ _ => 0
  | .discriminator _ options _ _ => recordNestingOptions options

def recordNestingAll : List Block → Nat
  | [] => 0
  | block :: rest => max block.recordNesting (recordNestingAll rest)

def recordNestingOptions : List (Tag × List Block) → Nat
  | [] => 0
  | (_, body) :: rest => max (recordNestingAll body) (recordNestingOptions rest)

end

/-- If the failure is about depth, it names the limit, and the limit is below the bound. -/
def DepthBelow (limits : Limits) (bound : Nat) (error : Error) : Prop :=
  ∀ limit, error = .depthExceeded limit → limit = limits.depth ∧ limits.depth < bound

theorem failsAs_of_complains {kind : Kind} {reader : Reader α} (h : FailsAs kind.Complains reader) :
    FailsAs (DepthBelow limits bound) reader := by
  refine h.mono fun error hcomplains limit heq => ?_
  subst heq
  rcases hcomplains with hwire | hcheck
  · cases hwire
  · cases kind <;> cases hcheck

theorem failsAs_elementCount (limits : Limits) :
    FailsAs (DepthBelow limits bound) (elementCount limits) :=
  failsAs_of_complains ((wireOnly_elementCount limits).complains .null)

theorem DepthBelow.mono (h : DepthBelow limits bound error) (hle : bound ≤ bound') :
    DepthBelow limits bound' error :=
  fun limit heq => ⟨(h limit heq).1, Nat.lt_of_lt_of_le (h limit heq).2 hle⟩

mutual

/-- A block that is read at some depth complains of the depth only if the limit is below that depth
and what the block adds to it. -/
theorem failsAs_read (limits : Limits) : (block : Block) → (depth : Nat) →
    FailsAs (DepthBelow limits (depth + block.recordNesting)) (block.read limits depth)
  | .primitive kind path, _ => (failsAs_of_complains kind.complains_read).map _
  | .array .object inner path, depth => by
    rw [read, recordNesting]
    refine (failsAs_elementCount limits).bind fun count => ?_
    split
    · rename_i hdeep
      refine failsAs_throw fun limit heq => ?_
      cases heq
      exact ⟨rfl, by omega⟩
    · have hinner : FailsAs (DepthBelow limits (depth + (recordNestingAll inner + 1)))
          (readAll limits inner (depth + 1)) :=
        (failsAs_readAll limits inner (depth + 1)).mono fun _ h => h.mono (by omega)
      exact ((hinner.map Value.ofWrites).timesAfter [] count).map _
  | .array (.scalar kind) inner path, depth =>
    (failsAs_of_complains kind.complains_check).bind fun _ =>
      (failsAs_elementCount limits).bind fun count =>
        (failsAs_of_complains (complains_elements kind count)).map _
  | .discriminator kind options field path, depth =>
    (failsAs_of_complains kind.complains_read).bind fun tag =>
      (failsAs_readOption limits options tag depth).map _

theorem failsAs_readAll (limits : Limits) : (blocks : List Block) → (depth : Nat) →
    FailsAs (DepthBelow limits (depth + recordNestingAll blocks)) (readAll limits blocks depth)
  | [], _ => failsAs_pure _
  | block :: rest, depth => by
    rw [readAll, recordNestingAll]
    refine ((failsAs_read limits block depth).mono fun _ h => h.mono ?_).bind fun first =>
      ((failsAs_readAll limits rest depth).mono fun _ h => h.mono ?_).map _
    · omega
    · omega

theorem failsAs_readOption (limits : Limits) : (options : List (Tag × List Block)) →
    (tag : Value) → (depth : Nat) →
    FailsAs (DepthBelow limits (depth + recordNestingOptions options))
      (readOption limits options tag depth)
  | [], _, _ => failsAs_pure _
  | (option, body) :: rest, tag, depth => by
    rw [readOption, recordNestingOptions]
    refine .ite ((failsAs_readAll limits body depth).mono fun _ h => h.mono ?_)
      ((failsAs_readOption limits rest tag depth).mono fun _ h => h.mono ?_)
    · omega
    · omega

end

end Block

-- ---------------------------------------------------------------------------
-- How writing can fail
-- ---------------------------------------------------------------------------

namespace Emission

variable {allowed : Error → Prop}

def FailsAs (allowed : Error → Prop) (emission : Emission) : Prop :=
  ∀ error, emission.failure = some error → allowed error

theorem failsAs_ofBytes (bytes : Bytes) : FailsAs allowed (ofBytes bytes) := nofun

theorem failsAs_fail (h : allowed error) : FailsAs allowed (fail error) := by
  rintro _ ⟨⟩
  exact h

theorem FailsAs.append {first second : Emission} (h : FailsAs allowed first)
    (h' : FailsAs allowed second) : FailsAs allowed (first ++ second) := by
  obtain ⟨bytes, failure⟩ := first
  cases failure with
  | none => exact h'
  | some error => exact h

theorem FailsAs.concat {emissions : List Emission} (h : ∀ emission ∈ emissions, FailsAs allowed emission) :
    FailsAs allowed (concat emissions) := by
  induction emissions with
  | nil => exact failsAs_ofBytes []
  | cons first rest ih =>
    rw [List.forall_mem_cons] at h
    exact h.1.append (ih h.2)

end Emission

open Emission (failsAs_ofBytes failsAs_fail)

namespace Value

theorem require_error {data : Value} (h : data.require path = .error error) :
    error.ofDocument = true := by
  rw [require] at h
  split at h
  · cases h
  · cases h
    rfl

theorem requireArray_error {data : Value} (h : data.requireArray path = .error error) :
    error.ofDocument = true := by
  rw [requireArray] at h
  split at h
  · cases h
  · cases h
    rfl
  · rename_i hr
    cases h
    exact require_error hr

theorem discriminatorTag_error {data : Value} (h : data.discriminatorTag path field = .error error) :
    error.ofDocument = true := by
  rw [discriminatorTag] at h
  split at h
  · cases h
  · cases hr : data.require (path.child field) with
    | error failure =>
      rw [hr] at h
      cases h
      exact require_error hr
    | ok value =>
      rw [hr] at h
      cases h

end Value

def Kind.Refuses (kind : Kind) (error : Error) : Prop :=
  error.ofDocument = true ∨ kind.check = .error error

theorem Kind.emit_of_encode?_eq_none {kind : Kind} (hk : kind.check = .ok ())
    (h : kind.encode? value = none) (path : Path) :
    kind.emit path value = .fail (.typeMismatch path kind.name value.variantName) := by
  cases kind with
  | unknown name => cases hk
  | _ => simp only [emit, h]

theorem Kind.failsAs_emit (kind : Kind) (path : Path) (value : Value) :
    (kind.emit path value).FailsAs kind.Refuses := by
  cases hk : kind.check with
  | error error =>
    cases kind with
    | unknown name => exact failsAs_fail (.inr rfl)
    | _ => cases hk
  | ok =>
    cases he : kind.encode? value with
    | some bytes => exact emit_eq_ofBytes.mpr he ▸ failsAs_ofBytes bytes
    | none => exact emit_of_encode?_eq_none hk he path ▸ failsAs_fail (.inl rfl)

theorem flagsOf_error (h : flagsOf path index items = .error error) : error.ofDocument = true := by
  induction items generalizing index with
  | nil => cases h
  | cons item items ih =>
    cases item with
    | bool flag =>
      rw [flagsOf] at h
      cases hf : flagsOf path (index + 1) items with
      | error failure =>
        rw [hf] at h
        cases h
        exact ih hf
      | ok flags =>
        rw [hf] at h
        cases h
    | _ =>
      cases h
      rfl

theorem failsAs_emitElements (kind : Kind) (path : Path) (items : List Value) :
    (emitElements kind path items).FailsAs kind.Refuses := by
  have hscalars : (Emission.concat (items.mapIdx fun index item =>
      kind.emit (path.child (toString index)) item)).FailsAs kind.Refuses := by
    refine .concat fun emission he => ?_
    obtain ⟨index, hi, rfl⟩ := List.mem_mapIdx.mp he
    exact kind.failsAs_emit _ _
  cases kind with
  | boolean =>
    rw [emitElements]
    cases hf : flagsOf path 0 items with
    | error error => exact failsAs_fail (.inl (flagsOf_error hf))
    | ok flags => exact failsAs_ofBytes _
  | _ => exact hscalars

end Positional
