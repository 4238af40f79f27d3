import Positional.Wire.Emission
import Positional.Wire.Reader

/-!
# Reading back what was written

`Returns` says that a reader undoes given bytes: whatever follows them, it gives the value and stops
right behind them. Each primitive of the wire is undone by its reader. Counts and lengths beyond 64
bits have no varint; a reader refuses them.

`Covers` is the other way round: whatever bytes a reader accepts, writing its value anew takes no
more of them.
-/

namespace Positional

namespace Emission

theorem append_eq_ofBytes {first second : Emission} {written : Bytes} :
    first ++ second = .ofBytes written ↔
      ∃ a b, first = .ofBytes a ∧ second = .ofBytes b ∧ written = a ++ b := by
  obtain ⟨a, failure⟩ := first
  obtain ⟨b, failure'⟩ := second
  cases failure with
  | some error =>
    change Emission.mk a (some error) = _ ↔ _
    simp [ofBytes]
  | none =>
    change Emission.mk (a ++ b) failure' = _ ↔ _
    simp only [ofBytes, mk.injEq, and_true]
    constructor
    · rintro ⟨rfl, rfl⟩
      exact ⟨a, b, rfl, ⟨rfl, rfl⟩, rfl⟩
    · rintro ⟨_, _, rfl, ⟨rfl, rfl⟩, rfl⟩
      exact ⟨rfl, rfl⟩

@[simp] theorem ofBytes_inj : ofBytes a = ofBytes b ↔ a = b := by simp [ofBytes]

@[simp] theorem fail_ne_ofBytes (error : Error) (written : Bytes) :
    fail error ≠ ofBytes written := by
  simp [fail, ofBytes]

end Emission

namespace Reader

-- ---------------------------------------------------------------------------
-- Runs
-- ---------------------------------------------------------------------------

-- the rules for sequences hold of every computation that keeps its state when it fails
theorem run_bind_ok {reader : ExceptT ε (StateM σ) α}
    {next : α → ExceptT ε (StateM σ) β}
    (h : reader.run cursor = (.ok value, after)) :
    (reader >>= next).run cursor = (next value).run after := by
  change (match reader.run cursor with | (a, s) => ExceptT.bindCont next a s) = _
  rw [h]
  rfl

theorem run_bind_error {reader : ExceptT ε (StateM σ) α}
    {next : α → ExceptT ε (StateM σ) β}
    (h : reader.run cursor = (.error error, after)) :
    (reader >>= next).run cursor = (.error error, after) := by
  change (match reader.run cursor with | (a, s) => ExceptT.bindCont next a s) = _
  rw [h]
  rfl

theorem bind_ok {reader : ExceptT ε (StateM σ) α}
    {next : α → ExceptT ε (StateM σ) β} :
    (reader >>= next).run cursor = (.ok result, last) ↔
      ∃ value after, reader.run cursor = (.ok value, after) ∧
        (next value).run after = (.ok result, last) := by
  constructor
  · intro h
    rcases hr : reader.run cursor with ⟨error | value, after⟩
    · rw [run_bind_error hr] at h
      cases h
    · exact ⟨value, after, rfl, run_bind_ok hr ▸ h⟩
  · rintro ⟨value, after, hr, hn⟩
    rw [run_bind_ok hr, hn]

theorem bind_error {reader : ExceptT ε (StateM σ) α}
    {next : α → ExceptT ε (StateM σ) β} :
    (reader >>= next).run cursor = (.error error, last) ↔
      reader.run cursor = (.error error, last) ∨ ∃ value after,
        reader.run cursor = (.ok value, after) ∧ (next value).run after = (.error error, last) := by
  constructor
  · intro h
    rcases hr : reader.run cursor with ⟨failure | value, after⟩
    · rw [run_bind_error hr] at h
      cases h
      exact .inl rfl
    · rw [run_bind_ok hr] at h
      exact .inr ⟨value, after, rfl, h⟩
  · rintro (hr | ⟨value, after, hr, hn⟩)
    · exact run_bind_error hr
    · rw [run_bind_ok hr, hn]

theorem pure_ok {value : α} : (pure value : ExceptT ε (StateM σ) α).run cursor = (.ok result, last) ↔
    value = result ∧ cursor = last := by
  change (Except.ok value, cursor) = (.ok result, last) ↔ _
  simp

theorem throw_ok {error : Error} : ¬ (throw error : Reader α).run cursor = (.ok result, last) := by
  change ¬ (Except.error error, cursor) = (.ok result, last)
  simp

theorem run_map (f : α → β) (reader : Reader α) (cursor : Cursor) :
    (f <$> reader).run cursor = ((reader.run cursor).1.map f, (reader.run cursor).2) := by
  rw [map_eq_pure_bind]
  rcases h : reader.run cursor with ⟨error | value, last⟩
  · rw [run_bind_error h]
    rfl
  · rw [run_bind_ok h]
    rfl

theorem map_ok {f : α → β} {reader : Reader α} :
    (f <$> reader).run cursor = (.ok result, last) ↔
      ∃ value, reader.run cursor = (.ok value, last) ∧ f value = result := by
  rw [map_eq_pure_bind, bind_ok]
  constructor
  · rintro ⟨value, after, hreader, hpure⟩
    obtain ⟨rfl, rfl⟩ := pure_ok.mp hpure
    exact ⟨value, hreader, rfl⟩
  · rintro ⟨value, hreader, rfl⟩
    exact ⟨value, last, hreader, pure_ok.mpr ⟨rfl, rfl⟩⟩

theorem get_ok : (get : Reader Cursor).run cursor = (.ok found, last) ↔
    cursor = found ∧ cursor = last := by
  change (Except.ok cursor, cursor) = (.ok found, last) ↔ _
  simp

theorem set_ok {new : Cursor} : (set new : Reader PUnit).run cursor = (.ok unit, last) ↔
    new = last := by
  change (Except.ok PUnit.unit, new) = (.ok unit, last) ↔ _
  simp

theorem run_position (cursor : Cursor) : position.run cursor = (.ok cursor.pos, cursor) := rfl

theorem exact_ok : (exact count).run cursor = (.ok bytes, last) ↔
    count ≤ cursor.rest.length ∧ bytes = cursor.rest.take count ∧
      last = ⟨cursor.pos + count, cursor.rest.drop count⟩ := by
  simp only [exact, bind_ok, get_ok]
  constructor
  · rintro ⟨_, _, ⟨rfl, rfl⟩, h⟩
    split at h
    · rename_i hle
      obtain ⟨_, _, hset, hpure⟩ := bind_ok.mp h
      obtain ⟨rfl, rfl⟩ := pure_ok.mp hpure
      exact ⟨hle, rfl, (set_ok.mp hset).symm⟩
    · exact absurd h throw_ok
  · rintro ⟨hle, rfl, rfl⟩
    refine ⟨cursor, cursor, ⟨rfl, rfl⟩, ?_⟩
    rw [if_pos (show count ≤ cursor.remaining from hle)]
    exact bind_ok.mpr ⟨⟨⟩, _, set_ok.mpr rfl, pure_ok.mpr ⟨rfl, rfl⟩⟩

theorem run_exact_short (h : rest.length < count) : (exact count).run ⟨pos, rest⟩ =
    (.error (.unexpectedEof pos count rest.length), ⟨pos, rest⟩) := by
  rw [exact, run_bind_ok (get_ok.mpr ⟨rfl, rfl⟩),
    if_neg (show ¬ count ≤ (Cursor.mk pos rest).remaining from Nat.not_le_of_lt h)]
  rfl

theorem exact_error : (exact count).run cursor = (.error error, last) ↔
    cursor.remaining < count ∧ error = .unexpectedEof cursor.pos count cursor.remaining ∧
      last = cursor := by
  constructor
  · intro h
    by_cases hshort : cursor.rest.length < count
    · rw [run_exact_short hshort] at h
      cases h
      exact ⟨hshort, rfl, rfl⟩
    · rw [exact_ok.mpr ⟨Nat.le_of_not_lt hshort, rfl, rfl⟩] at h
      cases h
  · rintro ⟨hshort, rfl, rfl⟩
    exact run_exact_short hshort

theorem byte_ok : byte.run cursor = (.ok next, last) ↔
    cursor.rest = next :: last.rest ∧ last.pos = cursor.pos + 1 := by
  simp only [byte, bind_ok, get_ok]
  constructor
  · rintro ⟨_, _, ⟨rfl, rfl⟩, h⟩
    split at h
    · rename_i first rest hrest
      obtain ⟨_, _, hset, hpure⟩ := bind_ok.mp h
      obtain ⟨rfl, rfl⟩ := pure_ok.mp hpure
      rw [← set_ok.mp hset]
      exact ⟨hrest, rfl⟩
    · exact absurd h throw_ok
  · rintro ⟨hrest, hpos⟩
    refine ⟨cursor, cursor, ⟨rfl, rfl⟩, ?_⟩
    rw [hrest, ← hpos]
    exact bind_ok.mpr ⟨⟨⟩, _, set_ok.mpr rfl, pure_ok.mpr ⟨rfl, rfl⟩⟩

/-- What holds of no items where nothing is read, and of an item before those that are read after it,
holds of all that a repeated reader yields. -/
theorem timesAfter_induct {reader : Reader α} {P : Cursor → Cursor → List α → Prop}
    (nil : ∀ cursor, P cursor cursor [])
    (cons : ∀ {cursor item mid items last}, reader.run cursor = (.ok item, mid) →
      P mid last items → P cursor last (item :: items))
    (hrun : (timesAfter reader done count).run cursor = (.ok all, last)) :
    ∃ items, all = done.reverse ++ items ∧ items.length = count ∧ P cursor last items := by
  induction count generalizing done cursor with
  | zero =>
    obtain ⟨rfl, rfl⟩ := pure_ok.mp hrun
    exact ⟨[], by simp, rfl, nil cursor⟩
  | succ count ih =>
    obtain ⟨item, mid, hitem, hrest⟩ := bind_ok.mp hrun
    obtain ⟨items, rfl, rfl, hitems⟩ := ih hrest
    exact ⟨item :: items, by simp, rfl, cons hitem hitems⟩

-- ---------------------------------------------------------------------------
-- Undoing bytes
-- ---------------------------------------------------------------------------

/-- Reading the bytes, whatever follows them, gives the value and stops right behind them. Unless
`fits` holds, it may fail instead. -/
def Returns (fits : Prop) (reader : Reader α) (bytes : Bytes) (value : α) : Prop :=
  ∀ pos rest, reader.run ⟨pos, bytes ++ rest⟩ = (.ok value, ⟨pos + bytes.length, rest⟩) ∨
    ¬ fits ∧ ∃ error after, reader.run ⟨pos, bytes ++ rest⟩ = (.error error, after)

theorem Returns.mono (h : Returns fits reader bytes value) (hf : fits' → fits) :
    Returns fits' reader bytes value := by
  intro pos rest
  rcases h pos rest with hok | ⟨hn, herr⟩
  · exact .inl hok
  · exact .inr ⟨fun hf' => hn (hf hf'), herr⟩

theorem Returns.pure (value : α) : Returns True (Pure.pure value : Reader α) [] value :=
  fun _ _ => .inl rfl

theorem Returns.bind {next : α → Reader β} (h : Returns fits reader bytes value)
    (hn : Returns fits' (next value) bytes' result) :
    Returns (fits ∧ fits') (reader >>= next) (bytes ++ bytes') result := by
  intro pos rest
  rw [List.append_assoc, List.length_append, ← Nat.add_assoc]
  rcases h pos (bytes' ++ rest) with hok | ⟨hf, error, after, herr⟩
  · rw [run_bind_ok hok]
    rcases hn (pos + bytes.length) rest with hok' | ⟨hf', herr'⟩
    · exact .inl hok'
    · exact .inr ⟨fun hff => hf' hff.2, herr'⟩
  · exact .inr ⟨fun hff => hf hff.1, error, after, run_bind_error herr⟩

theorem Returns.bind_nil {next : α → Reader β} (h : Returns fits reader bytes value)
    (hn : Returns True (next value) [] result) :
    Returns fits (reader >>= next) bytes result := by
  have hb := h.bind hn
  rw [List.append_nil] at hb
  exact hb.mono fun hf => ⟨hf, trivial⟩

theorem Returns.map {reader : Reader α} (f : α → β) (h : Returns fits reader bytes value) :
    Returns fits (do return f (← reader)) bytes (f value) :=
  h.bind_nil (Returns.pure (f value))

/-- What a reader does after asking for its position may depend on it in reports only. -/
theorem Returns.position {next : Nat → Reader α} (h : ∀ pos, Returns fits (next pos) bytes value) :
    Returns fits (Reader.position >>= next) bytes value := by
  intro pos rest
  rw [run_bind_ok (run_position _)]
  exact h pos pos rest

theorem Returns.of_error {reader : Reader α} (hf : ¬ fits)
    (h : ∀ pos rest, ∃ error after, reader.run ⟨pos, bytes ++ rest⟩ = (.error error, after)) :
    Returns fits reader bytes value :=
  fun pos rest => .inr ⟨hf, h pos rest⟩

theorem returns_exact (bytes : Bytes) : Returns True (exact bytes.length) bytes bytes := by
  intro pos rest
  refine .inl (exact_ok.mpr ⟨by simp, by simp, by simp⟩)

/-- Items read one after the other, each undoing its own bytes. -/
theorem Returns.timesAfter {reader : Reader α} {write : ι → Emission} {read : ι → α}
    {fits : ι → Prop} {items : List ι} (done : List α)
    (h : ∀ item ∈ items, ∀ bytes, write item = .ofBytes bytes →
      Returns (fits item ∧ bytes.length < UInt64.size) reader bytes (read item))
    (hw : .concat (items.map write) = Emission.ofBytes bytes) :
    Returns ((∀ item ∈ items, fits item) ∧ bytes.length < UInt64.size)
      (timesAfter reader done items.length) bytes (done.reverse ++ items.map read) := by
  induction items generalizing done bytes with
  | nil =>
    cases hw
    rw [List.map_nil, List.append_nil]
    exact (Returns.pure done.reverse).mono fun _ => trivial
  | cons item items ih =>
    obtain ⟨first, others, hfirst, hothers, rfl⟩ := Emission.append_eq_ofBytes.mp hw
    have hitem := h item (List.mem_cons_self ..) first hfirst
    have hrest := ih (read item :: done) (fun i hi => h i (List.mem_cons_of_mem _ hi)) hothers
    have hall : Returns _ (reader >>= fun a => Reader.timesAfter reader (a :: done) items.length)
        _ _ := hitem.bind hrest
    rw [List.reverse_cons, List.append_assoc] at hall
    refine hall.mono fun ⟨hf, hlen⟩ => ?_
    rw [List.length_append] at hlen
    exact ⟨⟨hf item (List.mem_cons_self ..), by omega⟩,
      fun i hi => hf i (List.mem_cons_of_mem _ hi), by omega⟩

end Reader

end Positional
