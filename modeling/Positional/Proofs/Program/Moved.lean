import Positional.Proofs.Document.Lens
import Positional.Proofs.Program.Emitting

/-!
# Programs moved below a path

A program whose blocks are moved below a path does to a document what the program itself does to the
value at that path: it writes the same bytes and stops at the same place for the same cause. Only the
paths in reports tell the two runs apart.
-/

namespace Positional

-- ---------------------------------------------------------------------------
-- Alike but for the paths in reports
-- ---------------------------------------------------------------------------

/-- The failure without the path that it names. -/
def Error.unplaced : Error → Error
  | unsupportedSchema _ => unsupportedSchema []
  | undecidableDiscriminator _ => undecidableDiscriminator []
  | invalidUnionMember _ discriminator => invalidUnionMember [] discriminator
  | missingValue _ => missingValue []
  | typeMismatch _ expected got => typeMismatch [] expected got
  | error => error

/-- The second computation yields what the first does, through the function, and fails where the
first does, for the same cause. -/
def Moves (f : α → β) : Except Error α → Except Error β → Prop
  | .ok a, second => second = .ok (f a)
  | .error error, second => ∃ other, second = .error other ∧ other.unplaced = error.unplaced

namespace Moves

theorem cases {f : α → β} (h : Moves f first second) :
    (∃ a, first = .ok a ∧ second = .ok (f a)) ∨
      ∃ error other, first = .error error ∧ second = .error other ∧ other.unplaced = error.unplaced := by
  cases first with
  | ok a => exact .inl ⟨a, rfl, h⟩
  | error error =>
    obtain ⟨other, hs, he⟩ := h
    exact .inr ⟨error, other, rfl, hs, he⟩

theorem refl (first : Except Error α) : Moves id first first := by
  cases first with
  | ok a => rfl
  | error error => exact ⟨error, rfl, rfl⟩

theorem pure {f : α → β} (h : b = f a) : Moves f (Pure.pure a) (Pure.pure b) :=
  congrArg Except.ok h

theorem bind {f : α → β} {g : α' → β'} {next : α → Except Error α'} {next' : β → Except Error β'}
    (h : Moves f first second) (hn : ∀ a, Moves g (next a) (next' (f a))) :
    Moves g (first >>= next) (second >>= next') := by
  rcases h.cases with ⟨a, rfl, rfl⟩ | ⟨_, other, rfl, rfl, he⟩
  · exact hn a
  · exact ⟨other, rfl, he⟩

theorem map {f : α → β} (h : Moves f first second) {g : α → α'} {g' : β → β'} {k : α' → β'}
    (hk : ∀ a, g' (f a) = k (g a)) : Moves k (first.map g) (second.map g') := by
  rcases h.cases with ⟨a, rfl, rfl⟩ | ⟨_, other, rfl, rfl, he⟩
  · exact congrArg Except.ok (hk a)
  · exact ⟨other, rfl, he⟩

end Moves

namespace Emission

def unplaced (emission : Emission) : Emission :=
  ⟨emission.bytes, emission.failure.map Error.unplaced⟩

@[simp] theorem unplaced_append (first second : Emission) :
    (first ++ second).unplaced = first.unplaced ++ second.unplaced := by
  obtain ⟨bytes, failure⟩ := first
  cases failure <;> rfl

theorem unplaced_fail {error other : Error} (h : other.unplaced = error.unplaced) :
    (fail other).unplaced = (fail error).unplaced := by
  rw [unplaced, unplaced, fail, fail, Option.map_some, Option.map_some, h]

theorem unplaced_concat_mapIdx {f g : Nat → α → Emission}
    (h : ∀ i item, (f i item).unplaced = (g i item).unplaced) (items : List α) :
    (concat (items.mapIdx f)).unplaced = (concat (items.mapIdx g)).unplaced := by
  induction items generalizing f g with
  | nil => rfl
  | cons item items ih =>
    rw [List.mapIdx_cons, List.mapIdx_cons, concat, concat, unplaced_append, unplaced_append, h,
      ih fun i => h (i + 1)]

end Emission

theorem Kind.unplaced_emit (kind : Kind) (path other : Path) (value : Value) :
    (kind.emit path value).unplaced = (kind.emit other value).unplaced := by
  cases kind with
  | unknown name => rfl
  | _ =>
    simp only [emit]
    split <;> rfl

theorem moves_flagsOf (path other : Path) (index : Nat) (items : List Value) :
    Moves id (flagsOf path index items) (flagsOf other index items) := by
  induction items generalizing index with
  | nil => rfl
  | cons item items ih =>
    cases item with
    | bool flag => exact (ih (index + 1)).map fun _ => rfl
    | _ => exact ⟨_, rfl, rfl⟩

theorem unplaced_emitElements (kind : Kind) (path other : Path) (items : List Value) :
    (emitElements kind path items).unplaced = (emitElements kind other items).unplaced := by
  cases kind with
  | boolean =>
    rw [emitElements, emitElements]
    rcases (moves_flagsOf other path 0 items).cases with ⟨flags, ho, hp⟩ | ⟨_, _, ho, hp, he⟩
    · rw [ho, hp]
      rfl
    · rw [ho, hp]
      exact Emission.unplaced_fail he
  | _ => exact Emission.unplaced_concat_mapIdx (fun _ _ => Kind.unplaced_emit ..) items

-- ---------------------------------------------------------------------------
-- What is found below a path
-- ---------------------------------------------------------------------------

theorem Path.child_append (base path : Path) (name : String) :
    child (base ++ path) name = base ++ child path name :=
  List.append_assoc ..

namespace Value

variable {x v : Value} {base : Path} (h : x.lookup base = some v)
include h

theorem lookup_below (path : Path) : x.lookup (base ++ path) = v.lookup path := by
  rw [lookup_append, h, Option.bind_some]

theorem moves_require (path : Path) : Moves id (v.require path) (x.require (base ++ path)) := by
  rw [require, require, lookup_below h]
  cases v.lookup path with
  | none => exact ⟨_, rfl, rfl⟩
  | some value => rfl

theorem moves_requireArray (path : Path) :
    Moves id (v.requireArray path) (x.requireArray (base ++ path)) := by
  rw [requireArray, requireArray]
  rcases (moves_require h path).cases with ⟨value, hv, hx⟩ | ⟨_, other, hv, hx, he⟩
  · rw [hv, hx, id]
    cases value with
    | array items => rfl
    | _ => exact ⟨_, rfl, rfl⟩
  · rw [hv, hx]
    exact ⟨other, rfl, he⟩

theorem moves_discriminatorTag (path : Path) (field : String) :
    Moves (fun found => (found.1, base ++ found.2)) (v.discriminatorTag path field)
      (x.discriminatorTag (base ++ path) field) := by
  rw [discriminatorTag, discriminatorTag, lookup_below h, Path.child_append]
  split
  · rfl
  · exact (moves_require h (Path.child path field)).map fun _ => rfl

end Value

-- ---------------------------------------------------------------------------
-- Moved blocks
-- ---------------------------------------------------------------------------

namespace Block

mutual

/-- The block with a path in front of its own. The options move along; the elements of an array are
documents of their own. -/
def moved (base : Path) : Block → Block
  | primitive kind path => primitive kind (base ++ path)
  | array element inner path => array element inner (base ++ path)
  | discriminator kind options field path =>
    discriminator kind (movedOptions base options) field (base ++ path)

def movedAll (base : Path) : List Block → List Block
  | [] => []
  | block :: rest => block.moved base :: movedAll base rest

def movedOptions (base : Path) : List (Tag × List Block) → List (Tag × List Block)
  | [] => []
  | (tag, body) :: rest => (tag, movedAll base body) :: movedOptions base rest

end

theorem movedAll_eq_map (base : Path) (blocks : Program) :
    movedAll base blocks = blocks.map (moved base) := by
  induction blocks with
  | nil => rfl
  | cons block rest ih => rw [movedAll, ih, List.map_cons]

theorem movedOptions_eq_map (base : Path) (options : List (Tag × Program)) :
    movedOptions base options = options.map fun option => (option.1, movedAll base option.2) := by
  induction options with
  | nil => rfl
  | cons option rest ih => rw [movedOptions, ih, List.map_cons]

@[simp] theorem path_moved (base : Path) (block : Block) :
    (block.moved base).path = base ++ block.path := by
  cases block <;> rfl

variable {x v : Value} {base : Path}

theorem emit_primitive_moved (h : x.lookup base = some v) (kind : Kind) (path : Path) :
    ((primitive kind (base ++ path)).emit x).unplaced = ((primitive kind path).emit v).unplaced := by
  have hrequire := (Value.moves_require h path).cases
  cases kind with
  | null | unknown => rfl
  | _ =>
    simp only [emit]
    rcases hrequire with ⟨value, hv, hx⟩ | ⟨_, _, hv, hx, he⟩
    · rw [hv, hx]
      exact Kind.unplaced_emit ..
    · rw [hv, hx]
      exact Emission.unplaced_fail he

theorem emit_array_moved (h : x.lookup base = some v) (element : Element) (inner : Program)
    (path : Path) :
    ((array element inner (base ++ path)).emit x).unplaced
      = ((array element inner path).emit v).unplaced := by
  rw [emit, emit]
  cases element.check with
  | error error => rfl
  | ok =>
    rcases (Value.moves_requireArray h path).cases with ⟨items, hv, hx⟩ | ⟨_, _, hv, hx, he⟩
    · rw [hv, hx]
      cases element with
      | object => rfl
      | scalar kind =>
        simp only [Emission.unplaced_append, id, unplaced_emitElements kind (base ++ path) path]
    · rw [hv, hx]
      exact Emission.unplaced_fail he

mutual

/-- A block moved below a path writes what the block itself writes for the value at that path. -/
theorem emit_moved (h : x.lookup base = some v) : (block : Block) →
    ((block.moved base).emit x).unplaced = (block.emit v).unplaced
  | .primitive kind path => emit_primitive_moved h kind path
  | .array element inner path => emit_array_moved h element inner path
  | .discriminator kind options field path => by
    rw [moved, emit, emit]
    cases kind.check with
    | error error => rfl
    | ok =>
      rcases (Value.moves_discriminatorTag h path field).cases with
        ⟨⟨tag, tagPath⟩, hv, hx⟩ | ⟨_, _, hv, hx, he⟩
      · rw [hv, hx]
        simp only [Emission.unplaced_append, emitOption_moved h tag options,
          kind.unplaced_emit (base ++ tagPath) tagPath]
      · rw [hv, hx]
        exact Emission.unplaced_fail he

theorem emitAll_moved (h : x.lookup base = some v) : (blocks : Program) →
    (emitAll (movedAll base blocks) x).unplaced = (emitAll blocks v).unplaced
  | [] => rfl
  | block :: rest => by
    rw [movedAll, emitAll, emitAll, Emission.unplaced_append, Emission.unplaced_append,
      emit_moved h block, emitAll_moved h rest]

theorem emitOption_moved (h : x.lookup base = some v) (tag : Value) :
    (options : List (Tag × Program)) →
    (emitOption (movedOptions base options) tag x).unplaced = (emitOption options tag v).unplaced
  | [] => rfl
  | (option, body) :: rest => by
    rw [movedOptions, emitOption, emitOption]
    split
    · exact emitAll_moved h body
    · exact emitOption_moved h tag rest

end

end Block

end Positional
