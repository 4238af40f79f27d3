import Positional.Json.Record
import Positional.Proofs.Json.Nesting

/-!
# What reading JSON yields

Only numbers that can be said exactly come out of a text: an integer beyond 64 bits is read as a
float, and a number beyond the greatest float is refused. Every value that is read can therefore be
printed and read again (`printable_of_parse?`).
-/

namespace Positional

theorem mem_of_single? {items : List α} (h : single? items = some a) : a ∈ items := by
  match items with
  | [item] =>
    cases h
    exact List.mem_singleton_self a

theorem mem_of_join {slots : List (Option α)} (h : (single? slots).join = some a) : some a ∈ slots :=
  mem_of_single? (Option.join_eq_some_iff.mp h)

namespace Json

variable {reader : FloatReader}

-- ---------------------------------------------------------------------------
-- Tokens
-- ---------------------------------------------------------------------------

theorem printable_finite? {numeral : Numeral} (h : finite? reader numeral = some json) :
    json.printable = true := by
  obtain ⟨x, hx, rfl⟩ := Option.map_eq_some_iff.mp h
  exact (Option.filter_eq_some_iff.mp hx).2

theorem printable_ofWhole? (h : ofWhole? reader negative whole = some json) :
    json.printable = true := by
  have hzero : (Binary64.ofMagnitude true 0).isFinite = true := by decide
  simp only [ofWhole?] at h
  split at h
  · cases h
    exact hzero
  · split at h
    · cases h
      assumption
    · exact printable_finite? h

theorem printable_unsigned? (h : unsigned? reader negative text = some json) :
    json.printable = true := by
  simp only [unsigned?] at h
  split at h
  · cases h
  · split at h
    · exact printable_ofWhole? h
    · obtain ⟨⟨fraction, tail⟩, -, h⟩ := Option.bind_eq_some_iff.mp h
      obtain ⟨e, -, h⟩ := Option.bind_eq_some_iff.mp h
      exact printable_finite? h

theorem printable_ofBare? (h : ofBare? reader text = some json) : json.printable = true := by
  unfold ofBare? at h
  split at h
  · cases h; rfl
  · cases h; rfl
  · cases h; rfl
  · exact printable_unsigned? h
  · exact printable_unsigned? h

def Token.printable : Token → Bool
  | scalar json => json.printable
  | _ => true

theorem printable_scalar? (h : ofBare? reader text = some json) :
    (Token.scalar json).printable = true :=
  printable_ofBare? h

theorem printable_punctuation? (h : punctuation? c = some token) : token.printable = true := by
  unfold punctuation? at h
  split at h <;> cases h <;> rfl

namespace Scan

variable {scan next : Scan} {found tokens : List Token}

theorem printable_begin (h : ∀ token ∈ found, token.printable = true) (c : Char) :
    ∀ token ∈ (begin found c).found, token.printable = true := by
  unfold begin
  split
  · exact h
  · split
    · exact h
    · split
      · exact List.forall_mem_cons.mpr ⟨printable_punctuation? ‹_›, h⟩
      · exact h

theorem printable_step (h : ∀ token ∈ scan.found, token.printable = true)
    (hs : scan.step reader c = some next) :
    ∀ token ∈ next.found, token.printable = true := by
  unfold step at hs
  split at hs
  · cases hs
    exact printable_begin h c
  · split at hs
    · obtain ⟨json, hb, rfl⟩ := Option.map_eq_some_iff.mp hs
      exact printable_begin (List.forall_mem_cons.mpr ⟨printable_scalar? hb, h⟩) c
    · cases hs
      exact h
  · split at hs
    · cases hs
      exact h
    · split at hs
      · obtain ⟨text, -, rfl⟩ := Option.map_eq_some_iff.mp hs
        exact List.forall_mem_cons.mpr ⟨rfl, h⟩
      · cases hs
        exact h

theorem printable_finish (h : ∀ token ∈ scan.found, token.printable = true)
    (hf : scan.finish reader = some tokens) : ∀ token ∈ tokens, token.printable = true := by
  unfold finish at hf
  split at hf
  · cases hf
    simpa using h
  · obtain ⟨json, hb, rfl⟩ := Option.map_eq_some_iff.mp hf
    have hall : ∀ token ∈ .scalar json :: scan.found, token.printable = true :=
      List.forall_mem_cons.mpr ⟨printable_scalar? hb, h⟩
    exact fun token ht => hall token (List.mem_reverse.mp ht)
  · cases hf

theorem printable_run (h : ∀ token ∈ scan.found, token.printable = true)
    (hr : run reader scan text = some tokens) : ∀ token ∈ tokens, token.printable = true := by
  induction text generalizing scan with
  | nil => exact printable_finish h hr
  | cons c rest ih =>
    cases hs : scan.step reader c with
    | none => simp [run, hs] at hr
    | some next => exact ih (printable_step h hs) (run_cons hs rest ▸ hr)

end Scan

theorem printable_tokens? (h : tokens? reader text = some tokens) :
    ∀ token ∈ tokens, token.printable = true := by
  have hstart : ∀ token ∈ (Scan.mk [] .none).found, token.printable = true := by simp
  exact Scan.printable_run hstart h

-- ---------------------------------------------------------------------------
-- Values
-- ---------------------------------------------------------------------------

def Opened.printable : Opened → Bool
  | array items => printableItems items
  | object members | member members _ => printableMembers members

namespace Parse

structure Printable (parse : Parse) : Prop where
  stack : ∀ container ∈ parse.stack, container.printable = true
  result {json : Json} : parse.stage = .done json → json.printable = true

variable {parse next : Parse} {json : Json} {token : Token} {container : Opened} {stage : Stage}
  {containers : List Opened}

theorem printable_complete (hc : ∀ container ∈ containers, container.printable = true)
    (hj : json.printable = true) (h : complete containers json = some next) : next.Printable := by
  unfold complete at h
  split at h
  · cases h
    exact ⟨hc, fun heq => by cases heq; exact hj⟩
  · cases h
    obtain ⟨hitems, houter⟩ := List.forall_mem_cons.mp hc
    refine ⟨List.forall_mem_cons.mpr ⟨?_, houter⟩, by simp⟩
    exact (Bool.and_eq_true ..).mpr ⟨hj, hitems⟩
  · cases h
    obtain ⟨hmembers, houter⟩ := List.forall_mem_cons.mp hc
    refine ⟨List.forall_mem_cons.mpr ⟨?_, houter⟩, by simp⟩
    exact (Bool.and_eq_true ..).mpr ⟨hj, hmembers⟩
  · cases h

theorem printable_enter (hc : ∀ container ∈ containers, container.printable = true)
    (ho : container.printable = true) (hs : ∀ json, stage ≠ .done json)
    (h : enter containers stage container = some next) : next.Printable := by
  unfold enter at h
  split at h
  · cases h
    exact ⟨List.forall_mem_cons.mpr ⟨ho, hc⟩, fun heq => absurd heq (hs _)⟩
  · cases h

theorem printable_beginValue (hc : ∀ container ∈ containers, container.printable = true)
    (ht : token.printable = true) (h : beginValue containers token = some next) :
    next.Printable := by
  unfold beginValue at h
  split at h
  · exact printable_complete hc ht h
  · exact printable_complete hc rfl h
  · exact printable_enter hc rfl (by simp) h
  · exact printable_enter hc rfl (by simp) h
  · cases h

theorem printable_close (hc : ∀ container ∈ containers, container.printable = true)
    (h : close containers token = some next) : next.Printable := by
  unfold close at h
  split at h
  · rename_i items _
    obtain ⟨hitems, houter⟩ := List.forall_mem_cons.mp hc
    have hreverse : (array items.reverse).printable = true := printableItems_iff.mpr fun item hi =>
      printableItems_iff.mp hitems item (List.mem_reverse.mp hi)
    exact printable_complete houter hreverse h
  · rename_i members _
    obtain ⟨hmembers, houter⟩ := List.forall_mem_cons.mp hc
    have hreverse : (object members.reverse).printable = true :=
      printableMembers_iff.mpr fun member hm =>
        printableMembers_iff.mp hmembers member (List.mem_reverse.mp hm)
    exact printable_complete houter hreverse h
  · cases h

theorem Printable.step (hp : parse.Printable) (ht : token.printable = true)
    (h : parse.step token = some next) : next.Printable := by
  have hc := hp.stack
  unfold Parse.step at h
  split at h
  · exact printable_beginValue hc ht h
  · exact printable_close hc h
  · exact printable_beginValue hc ht h
  · cases h
    exact ⟨hc, by simp⟩
  · cases h
    exact ⟨hc, by simp⟩
  · exact printable_close hc h
  · cases h
    rename_i hstack
    rw [hstack] at hc
    exact ⟨List.forall_mem_cons.mpr (List.forall_mem_cons.mp hc), by simp⟩
  · cases h
    rename_i hstack
    exact ⟨hstack ▸ hc, by simp⟩
  · cases h
    rename_i hstack
    exact ⟨hstack ▸ hc, by simp⟩
  · exact printable_close hc h
  · cases h

theorem Printable.run {tokens : List Token} (hp : parse.Printable)
    (ht : ∀ token ∈ tokens, token.printable = true) (h : parse.run tokens = some next) :
    next.Printable := by
  induction tokens generalizing parse with
  | nil =>
    cases h
    exact hp
  | cons token rest ih =>
    obtain ⟨htoken, hrest⟩ := List.forall_mem_cons.mp ht
    rw [run_cons_bind] at h
    obtain ⟨middle, hs, h⟩ := Option.bind_eq_some_iff.mp h
    exact ih (hp.step htoken hs) hrest h

end Parse

/-- What is read from a text can be printed. -/
theorem printable_of_parse? (h : parse? text reader = some json) : json.printable = true := by
  obtain ⟨tokens, ht, h⟩ := Option.bind_eq_some_iff.mp h
  obtain ⟨parse, hr, h⟩ := Option.bind_eq_some_iff.mp h
  have hstart : Parse.start.Printable := ⟨by simp [Parse.start], by simp [Parse.start]⟩
  have hend := hstart.run (printable_tokens? ht) hr
  unfold Parse.result? at h
  split at h
  · cases h
    exact hend.result ‹_›
  · cases h

theorem printable_of_field? (hm : printableMembers members = true)
    (h : field? name members = some json) : json.printable = true := by
  obtain ⟨member, hmember, rfl⟩ := List.mem_map.mp (mem_of_single? h)
  exact printableMembers_iff.mp hm member (List.mem_filter.mp hmember).1

end Json

end Positional
