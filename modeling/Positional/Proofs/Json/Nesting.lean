import Positional.Json.Parser
import Positional.Proofs.Json.Spelling

/-!
# How deep JSON nests

The reader takes the tokens of a value exactly if it never has more than `maxOpen` containers open,
which is to say that the value is no higher than that (`ofTokens?_toTokens`). A printed value is
therefore read back, whole and from either form, unless it is too high (`parse?_pretty`) or holds a
float that its reader does not read back.
-/

namespace Positional

namespace Json

mutual

/-- How many containers are open at once in a value. -/
def height : Json → Nat
  | array items => 1 + heightItems items
  | object members => 1 + heightMembers members
  | _ => 0

def heightItems : List Json → Nat
  | [] => 0
  | item :: rest => max item.height (heightItems rest)

def heightMembers : List (String × Json) → Nat
  | [] => 0
  | (_, item) :: rest => max item.height (heightMembers rest)

end

namespace Parse

variable {parse next : Parse} {stage opened : Stage} {token : Token} {container : Opened}
  {json : Json}

def run (parse : Parse) (tokens : List Token) : Option Parse := tokens.foldlM step parse

theorem run_cons (h : parse.step token = some next) (rest : List Token) :
    run parse (token :: rest) = run next rest := by
  rw [run, List.foldlM_cons, h]
  rfl

theorem run_cons_none (h : parse.step token = none) (rest : List Token) :
    run parse (token :: rest) = none := by
  rw [run, List.foldlM_cons, h]
  rfl

theorem run_cons_bind (parse : Parse) (token : Token) (rest : List Token) :
    run parse (token :: rest) = (parse.step token).bind (run · rest) := by
  rw [run, List.foldlM_cons]
  rfl

def Begins (stage : Stage) : Prop := stage = .value ∨ stage = .firstItem

theorem step_begin (hs : Begins stage) (ht : token ≠ .closeArray) (stack : List Opened) :
    step ⟨stage, stack⟩ token = beginValue stack token := by
  rcases hs with rfl | rfl
  · rfl
  · cases token <;> first | rfl | exact absurd rfl ht

theorem run_flat (hs : Begins stage) (ht : token ≠ .closeArray) {stack : List Opened}
    (hb : beginValue stack token = complete stack json) (hl : stack.length ≤ maxOpen)
    (rest : List Token) : run ⟨stage, stack⟩ ([token] ++ rest) =
      if stack.length + 0 ≤ maxOpen then (complete stack json).bind (run · rest) else none := by
  rw [List.singleton_append, run_cons_bind, step_begin hs ht, hb, Nat.add_zero, if_pos hl]

theorem run_enter_none {stack : List Opened} (hs : Begins stage) (ht : token ≠ .closeArray)
    (hb : beginValue stack token = enter stack opened container) (hl : ¬ stack.length < maxOpen)
    (rest : List Token) : run ⟨stage, stack⟩ (token :: rest) = none := by
  refine run_cons_none ?_ rest
  rw [step_begin hs ht, hb, enter, if_neg hl]

theorem run_enter {stack : List Opened} (hs : Begins stage) (ht : token ≠ .closeArray)
    (hb : beginValue stack token = enter stack opened container) (hl : stack.length < maxOpen)
    (rest : List Token) :
    run ⟨stage, stack⟩ (token :: rest) = run ⟨opened, container :: stack⟩ rest := by
  refine run_cons ?_ rest
  rw [step_begin hs ht, hb, enter, if_pos hl]

theorem complete_array (items : List Json) (outer : List Opened) (json : Json) :
    complete (.array items :: outer) json = some ⟨.separator, .array (json :: items) :: outer⟩ :=
  rfl

theorem complete_member (members : List (String × Json)) (name : String) (outer : List Opened)
    (json : Json) : complete (.member members name :: outer) json =
      some ⟨.separator, .object ((name, json) :: members) :: outer⟩ :=
  rfl

theorem run_closeArray (items : List Json) (outer : List Opened) (rest : List Token) :
    run ⟨.separator, .array items :: outer⟩ ([.closeArray] ++ rest) =
      (complete outer (.array items.reverse)).bind (run · rest) :=
  run_cons_bind ..

theorem run_closeObject (members : List (String × Json)) (outer : List Opened)
    (rest : List Token) :
    run ⟨.separator, .object members :: outer⟩ ([.closeObject] ++ rest) =
      (complete outer (.object members.reverse)).bind (run · rest) :=
  run_cons_bind ..

/-- Two values in turn need room for the higher one. -/
theorem room_and_room (a b room : Nat) (x : Option α) :
    (if a ≤ room then if b ≤ room then x else none else none) =
      if max a b ≤ room then x else none := by
  by_cases ha : a ≤ room <;> by_cases hb : b ≤ room <;> simp [ha, hb]

mutual

/-- The tokens of a value hand it to the innermost open container, unless it is too high to stand
there. -/
theorem run_toTokens : (json : Json) → {stage : Stage} → Begins stage → (stack : List Opened) →
    stack.length ≤ maxOpen → (rest : List Token) →
    run ⟨stage, stack⟩ (json.toTokens ++ rest) = if stack.length + json.height ≤ maxOpen then
      (complete stack json).bind (run · rest) else none
  | null, _, hs, _, hl, rest => run_flat hs (by simp) rfl hl rest
  | bool _, _, hs, _, hl, rest => run_flat hs (by simp) rfl hl rest
  | integer _, _, hs, _, hl, rest => run_flat hs (by simp) rfl hl rest
  | float _, _, hs, _, hl, rest => run_flat hs (by simp) rfl hl rest
  | string _, _, hs, _, hl, rest => run_flat hs (by simp) rfl hl rest
  | array items, stage, hs, stack, hl, rest => by
    rw [toTokens, height]
    by_cases hroom : stack.length < maxOpen
    · rw [List.cons_append, List.cons_append, run_enter hs (by simp) rfl hroom]
      cases items with
      | nil =>
        rw [if_pos (by rw [heightItems]; omega)]
        exact run_cons_bind ..
      | cons item items =>
        -- the first item stands without a comma, the others each behind one
        have hfirst := run_toTokens item (.inr rfl) (.array [] :: stack) hroom
          ((itemTokens items).flatMap (.comma :: ·) ++ ([.closeArray] ++ rest))
        have hmore := run_items items [item] hroom ([.closeArray] ++ rest)
        have hdepth : max (stack.length + 1 + item.height) (stack.length + 1 + heightItems items) =
            stack.length + (1 + heightItems (item :: items)) := by rw [heightItems]; omega
        rw [itemTokens, separated, List.append_assoc, List.append_assoc, hfirst, complete_array,
          Option.bind_some, hmore, List.length_cons, room_and_room, hdepth, run_closeArray,
          List.reverse_append, List.reverse_reverse, List.reverse_singleton,
          List.singleton_append]
    · rw [List.cons_append, List.cons_append, run_enter_none hs (by simp) rfl hroom,
        if_neg (by omega)]
  | object members, stage, hs, stack, hl, rest => by
    rw [toTokens, height]
    by_cases hroom : stack.length < maxOpen
    · rw [List.cons_append, List.cons_append, run_enter hs (by simp) rfl hroom]
      cases members with
      | nil =>
        rw [if_pos (by rw [heightMembers]; omega)]
        exact run_cons_bind ..
      | cons member members =>
        obtain ⟨name, item⟩ := member
        have hfirst := run_toTokens item (.inl rfl) (.member [] name :: stack) hroom
          ((memberTokens members).flatMap (.comma :: ·) ++ ([.closeObject] ++ rest))
        have hmore := run_members members [(name, item)] hroom ([.closeObject] ++ rest)
        have hdepth :
            max (stack.length + 1 + item.height) (stack.length + 1 + heightMembers members) =
              stack.length + (1 + heightMembers ((name, item) :: members)) := by
          rw [heightMembers]; omega
        rw [memberTokens, separated, List.append_assoc, List.append_assoc, List.cons_append,
          List.cons_append, run_cons rfl, run_cons rfl, hfirst, complete_member, Option.bind_some,
          hmore, List.length_cons, room_and_room, hdepth, run_closeObject, List.reverse_append,
          List.reverse_reverse, List.reverse_singleton, List.singleton_append]
    · rw [List.cons_append, List.cons_append, run_enter_none hs (by simp) rfl hroom,
        if_neg (by omega)]

theorem run_items : (items : List Json) → (held : List Json) → {outer : List Opened} →
    outer.length < maxOpen → (rest : List Token) →
    run ⟨.separator, .array held :: outer⟩ ((itemTokens items).flatMap (.comma :: ·) ++ rest) =
      if outer.length + 1 + heightItems items ≤ maxOpen then
        run ⟨.separator, .array (items.reverse ++ held) :: outer⟩ rest else none
  | [], held, outer, hl, rest => by
    rw [heightItems, if_pos (by omega)]
    rfl
  | item :: items, held, outer, hl, rest => by
    have hfirst := run_toTokens item (.inl rfl) (.array held :: outer) hl
      ((itemTokens items).flatMap (.comma :: ·) ++ rest)
    have hmore := run_items items (item :: held) hl rest
    rw [itemTokens, List.flatMap_cons, List.append_assoc, List.cons_append, run_cons rfl, hfirst,
      complete_array, Option.bind_some, hmore, List.length_cons, room_and_room,
      Nat.add_max_add_left, ← heightItems, List.reverse_cons, List.append_assoc,
      List.singleton_append]

theorem run_members : (members : List (String × Json)) → (held : List (String × Json)) →
    {outer : List Opened} → outer.length < maxOpen → (rest : List Token) →
    run ⟨.separator, .object held :: outer⟩ ((memberTokens members).flatMap (.comma :: ·) ++ rest) =
      if outer.length + 1 + heightMembers members ≤ maxOpen then
        run ⟨.separator, .object (members.reverse ++ held) :: outer⟩ rest else none
  | [], held, outer, hl, rest => by
    rw [heightMembers, if_pos (by omega)]
    rfl
  | (name, item) :: members, held, outer, hl, rest => by
    have hfirst := run_toTokens item (.inl rfl) (.member held name :: outer) hl
      ((memberTokens members).flatMap (.comma :: ·) ++ rest)
    have hmore := run_members members ((name, item) :: held) hl rest
    rw [memberTokens, List.flatMap_cons, List.append_assoc, List.cons_append, List.cons_append,
      List.cons_append, run_cons rfl, run_cons rfl, run_cons rfl, hfirst, complete_member,
      Option.bind_some, hmore, List.length_cons, room_and_room, Nat.add_max_add_left,
      ← heightMembers, List.reverse_cons, List.append_assoc, List.singleton_append]

end

end Parse

/-- The tokens of a value are read as that value, unless it is too high. -/
theorem ofTokens?_toTokens (json : Json) :
    ofTokens? json.toTokens = if json.height ≤ maxOpen then some json else none := by
  have hrun := Parse.run_toTokens json (.inl rfl) [] (Nat.zero_le _) []
  rw [List.append_nil, List.length_nil, Nat.zero_add] at hrun
  rw [ofTokens?]
  change (Parse.run ⟨.value, []⟩ json.toTokens).bind _ = _
  rw [hrun]
  split <;> rfl

variable {json : Json} {reader : FloatReader}

/-- The compact form of a value is read as that value, unless it is too high. -/
theorem parse?_compact (h : json.printable = true)
    (hr : ∀ x ∈ json.floats, reader.rereads x = true) :
    parse? json.compact reader = if json.height ≤ maxOpen then some json else none := by
  have htokens := (spellsItem_printCompact json h hr).tokens? [] (by simp)
  rw [List.append_nil] at htokens
  rw [parse?, compact, String.toList_ofList, htokens, Option.bind_some, ofTokens?_toTokens]

theorem parse?_pretty (h : json.printable = true)
    (hr : ∀ x ∈ json.floats, reader.rereads x = true) :
    parse? (json.pretty ++ "\n") reader = if json.height ≤ maxOpen then some json else none := by
  have htokens := (spellsItem_printPretty 0 json h hr).tokens? ['\n'] (by simp [isBlank])
  have htext : (json.pretty ++ "\n").toList = json.printPretty 0 ++ ['\n'] := by
    rw [String.toList_append, pretty, String.toList_ofList]
    rfl
  rw [parse?, htext, htokens, Option.bind_some, ofTokens?_toTokens]

end Json

end Positional
