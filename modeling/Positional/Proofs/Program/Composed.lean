import Positional.Program.Reading
import Positional.Proofs.Wire.Returns

/-!
# Readers are sequences of few steps

Every reader of the wire and every run of a program yields, fails, takes a byte or a fixed number of
bytes, asks for the offset, or is one such reader after another. What these steps have and a sequence
inherits, all of them have. The offset is asked for only to be reported: no value depends on it.
-/

namespace Positional

namespace Reader

variable {α β : Type}

/-- Wherever the first reader succeeds, the second does, with the same value at the same place. -/
def YieldsAs (first second : Reader α) : Prop :=
  ∀ cursor value last, first.run cursor = (.ok value, last) → second.run cursor = (.ok value, last)

theorem YieldsAs.refl (reader : Reader α) : YieldsAs reader reader := fun _ _ _ => id

theorem YieldsAs.of_throw (error : Error) (second : Reader α) : YieldsAs (throw error) second :=
  fun _ _ _ h => absurd h throw_ok

theorem YieldsAs.seq {reader reader' : Reader α} {next next' : α → Reader β}
    (hr : YieldsAs reader reader') (hn : ∀ a, YieldsAs (next a) (next' a)) :
    YieldsAs (reader >>= next) (reader' >>= next') := by
  intro cursor value last hrun
  obtain ⟨a, after, hreader, hnext⟩ := bind_ok.mp hrun
  exact bind_ok.mpr ⟨a, after, hr _ _ _ hreader, hn a _ _ _ hnext⟩

theorem YieldsAs.bind (reader : Reader α) {next next' : α → Reader β}
    (h : ∀ a, YieldsAs (next a) (next' a)) : YieldsAs (reader >>= next) (reader >>= next') :=
  (YieldsAs.refl reader).seq h

theorem YieldsAs.map {first second : Reader α} (h : YieldsAs first second) (f : α → β) :
    YieldsAs (do return f (← first)) (do return f (← second)) :=
  h.seq fun a => .refl (pure (f a))

theorem YieldsAs.ite {yes no yes' no' : Reader α} [Decidable c] (hy : YieldsAs yes yes')
    (hn : YieldsAs no no') : YieldsAs (if c then yes else no) (if c then yes' else no') := by
  split
  · exact hy
  · exact hn

/-- A reader that reaches the bytes only through the steps of the wire, and the offset only for what
it reports. -/
inductive Composed : {α : Type} → Reader α → Prop where
  | pure {α : Type} (a : α) : Composed (Pure.pure a)
  | throw {α : Type} (error : Error) : Composed (throw error : Reader α)
  | position {α : Type} {next : Nat → Reader α} : (∀ start, Composed (next start)) →
      (∀ start other, YieldsAs (next start) (next other)) → Composed (position >>= next)
  | byte : Composed byte
  | exact (count : Nat) : Composed (exact count)
  | bind {α β : Type} {reader : Reader α} {next : α → Reader β} : Composed reader →
      (∀ a, Composed (next a)) → Composed (reader >>= next)

theorem Composed.map {reader : Reader α} (h : Composed reader) (f : α → β) :
    Composed (do return f (← reader)) :=
  h.bind fun a => .pure (f a)

theorem Composed.ite {yes no : Reader α} [Decidable c] (hy : Composed yes) (hn : Composed no) :
    Composed (if c then yes else no) := by
  split
  · exact hy
  · exact hn

theorem composed_varintGroups (start : Nat) : (left : Nat) → Composed (varintGroups start left)
  | 0 => .throw _
  | left + 1 => Composed.byte.bind fun _ => .ite (.throw _) (.ite (.pure _)
      ((composed_varintGroups start left).map _))

theorem yieldsAs_varintGroups (start other : Nat) : (left : Nat) →
    YieldsAs (varintGroups start left) (varintGroups other left)
  | 0 => .of_throw _ _
  | left + 1 => .bind byte fun _ => .ite (.of_throw _ _) (.ite (.refl _)
      ((yieldsAs_varintGroups start other left).map _))

theorem composed_varint : Composed varint :=
  .position (fun start => (composed_varintGroups start 10).map _)
    fun start other => (yieldsAs_varintGroups start other 10).map _

theorem composed_lengthPrefixed : Composed lengthPrefixed :=
  composed_varint.bind fun _ => .exact _

theorem composed_text : Composed text := by
  refine composed_lengthPrefixed.bind fun content => ?_
  cases Wire.ofUtf8? content with
  | some text => exact .position (fun _ => .pure text) fun _ _ => .refl _
  | none => exact .position (fun _ => .throw _) fun _ _ => .of_throw _ _

theorem composed_packedFlags (count : Nat) : Composed (packedFlags count) :=
  .position (fun _ => composed_lengthPrefixed.bind fun _ => .ite (.throw _) (.pure _))
    fun _ _ => .bind lengthPrefixed fun _ => .ite (.of_throw _ _) (.refl _)

theorem Composed.timesAfter {reader : Reader α} (h : Composed reader) :
    (done : List α) → (count : Nat) → Composed (timesAfter reader done count)
  | _, 0 => .pure _
  | done, count + 1 => h.bind fun item => Composed.timesAfter h (item :: done) count

theorem composed_elementCount (limits : Limits) : Composed (elementCount limits) :=
  composed_varint.bind fun _ => .ite (.throw _) (.pure _)

end Reader

open Reader

theorem Kind.composed_read (kind : Kind) : Composed kind.read := by
  cases kind with
  | string => exact composed_text.map _
  | float => exact ((Composed.exact 8).map _).map _
  | int => exact (composed_varint.map _).map _
  | uint => exact composed_varint.map _
  | boolean => exact (composed_varint.map _).map _
  | date => exact ((Composed.exact 8).map _).map _
  | buffer => exact composed_lengthPrefixed.map _
  | null => exact .pure _
  | unknown name => exact .throw _

theorem Reader.composed_elements (kind : Kind) (count : Nat) : Composed (elements kind count) := by
  cases kind with
  | boolean => exact (composed_packedFlags count).map _
  | _ => exact (Kind.composed_read _).timesAfter [] count

namespace Block

mutual

theorem composed_read (limits : Limits) : (block : Block) → (depth : Nat) →
    Composed (block.read limits depth)
  | .primitive kind path, _ => kind.composed_read.map _
  | .array .object inner path, depth =>
    (composed_elementCount limits).bind fun count => .ite (.throw _)
      (((composed_readAll limits inner (depth + 1)).map Value.ofWrites).timesAfter [] count |>.map _)
  | .array (.scalar kind) _ path, _ => by
    rw [read]
    cases kind.check with
    | error error => exact .throw error
    | ok => exact (Composed.pure _).bind fun _ => (composed_elementCount limits).bind fun count =>
        (composed_elements kind count).map _
  | .discriminator kind options field path, depth =>
    kind.composed_read.bind fun tag => (composed_readOption limits options tag depth).map _

theorem composed_readAll (limits : Limits) : (blocks : List Block) → (depth : Nat) →
    Composed (readAll limits blocks depth)
  | [], _ => .pure _
  | block :: rest, depth =>
    (composed_read limits block depth).bind fun _ => (composed_readAll limits rest depth).map _

theorem composed_readOption (limits : Limits) : (options : List (Tag × List Block)) →
    (tag : Value) → (depth : Nat) → Composed (readOption limits options tag depth)
  | [], _, _ => .pure _
  | (_, body) :: rest, tag, depth =>
    .ite (composed_readAll limits body depth) (composed_readOption limits rest tag depth)

end

end Block

end Positional
