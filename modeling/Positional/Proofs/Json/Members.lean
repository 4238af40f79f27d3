import Mathlib.Data.String.Basic
import Positional.Json.Document
import Positional.Proofs.Document.Lens

/-!
# Members of objects

What an object holds under a name is what its last member of that name holds. Sorting keeps that, and
leaves each name once, so the document of an object holds the documents of its members.
-/

namespace Positional

theorem lookup_cons_ite (name other : String) (item : α) (items : List (String × α)) :
    ((name, item) :: items).lookup other = if other = name then some item else items.lookup other := by
  by_cases h : other = name
  · simp [h]
  · rw [List.lookup_cons, beq_eq_false_iff_ne.mpr h, if_neg h]

theorem lookup_map_snd (f : α → β) (name : String) (items : List (String × α)) :
    (items.map fun item => (item.1, f item.2)).lookup name = (items.lookup name).map f := by
  induction items with
  | nil => rfl
  | cons item rest ih =>
    rw [List.map_cons, lookup_cons_ite, lookup_cons_ite, ih]
    split <;> rfl

theorem lookup_putSorted (name other : String) (item : α) (items : List (String × α)) :
    (putSorted name item items).lookup other =
      if other = name then some item else items.lookup other := by
  induction items with
  | nil => exact lookup_cons_ite ..
  | cons head rest ih =>
    obtain ⟨first, old⟩ := head
    rw [putSorted]
    split
    · exact lookup_cons_ite ..
    · split
      · rename_i hsame
        obtain rfl := beq_iff_eq.mp hsame
        rw [lookup_cons_ite, lookup_cons_ite]
        split <;> rfl
      · rename_i hne
        have hname : first ≠ name := fun hfirst => hne (beq_iff_eq.mpr hfirst.symm)
        rw [lookup_cons_ite, lookup_cons_ite, ih]
        by_cases h : other = first
        · rw [if_pos h, if_pos h, if_neg (h ▸ hname)]
        · rw [if_neg h, if_neg h]

/-- Of several items of one name the last remains. -/
theorem lookup_sortByName (name : String) (items : List (String × α)) :
    (sortByName items).lookup name = items.reverse.lookup name := by
  suffices h : ∀ sorted : List (String × α),
      (items.foldl (fun sorted item => putSorted item.1 item.2 sorted) sorted).lookup name
        = (items.reverse ++ sorted).lookup name by
    simpa [sortByName] using h []
  induction items with
  | nil => exact fun _ => rfl
  | cons item rest ih =>
    intro sorted
    rw [List.foldl_cons, ih, List.reverse_cons, List.append_assoc, List.lookup_append,
      List.lookup_append, lookup_putSorted, List.singleton_append, lookup_cons_ite]

theorem mem_putSorted (h : entry ∈ putSorted name item items) : entry = (name, item) ∨ entry ∈ items := by
  induction items with
  | nil => exact .inl (List.mem_singleton.mp h)
  | cons head rest ih =>
    obtain ⟨first, old⟩ := head
    rw [putSorted] at h
    split at h
    · exact List.mem_cons.mp h
    · split at h
      · exact (List.mem_cons.mp h).imp_right (List.mem_cons_of_mem _)
      · rcases List.mem_cons.mp h with rfl | h
        · exact .inr (List.mem_cons_self ..)
        · exact (ih h).imp_right (List.mem_cons_of_mem _)

theorem pairwise_putSorted {items : List (String × α)} (name : String) (item : α)
    (h : items.Pairwise fun a b => a.1 < b.1) :
    (putSorted name item items).Pairwise fun a b => a.1 < b.1 := by
  induction items with
  | nil => exact List.pairwise_singleton ..
  | cons head rest ih =>
    obtain ⟨first, old⟩ := head
    obtain ⟨hfirst, hrest⟩ := List.pairwise_cons.mp h
    rw [putSorted]
    split
    · rename_i hlt
      exact List.pairwise_cons.mpr
        ⟨List.forall_mem_cons.mpr ⟨hlt, fun other ho => lt_trans hlt (hfirst other ho)⟩, h⟩
    · rename_i hge
      split
      · rename_i hsame
        rw [beq_iff_eq.mp hsame]
        exact List.pairwise_cons.mpr ⟨hfirst, hrest⟩
      · rename_i hne
        refine List.pairwise_cons.mpr ⟨fun other ho => ?_, ih hrest⟩
        rcases mem_putSorted ho with rfl | ho
        · exact lt_of_le_of_ne (not_lt.mp hge) fun heq => hne (beq_iff_eq.mpr heq.symm)
        · exact hfirst other ho

theorem pairwise_sortByName (items : List (String × α)) :
    (sortByName items).Pairwise fun a b => a.1 < b.1 := by
  have hput : ∀ sorted : List (String × α), sorted.Pairwise (fun a b => a.1 < b.1) →
      (items.foldl (fun sorted item => putSorted item.1 item.2 sorted) sorted).Pairwise
        fun a b => a.1 < b.1 := by
    induction items with
    | nil => exact fun _ h => h
    | cons item rest ih => exact fun sorted h => ih _ (pairwise_putSorted item.1 item.2 h)
  exact hput [] .nil

theorem names_nodup_sortByName (items : List (String × α)) : ((sortByName items).map (·.1)).Nodup :=
  List.pairwise_map.mpr ((pairwise_sortByName items).imp fun h => ne_of_lt h)

theorem mem_sortByName {items : List (String × α)} (h : entry ∈ sortByName items) : entry ∈ items := by
  have hput : ∀ items sorted : List (String × α),
      entry ∈ items.foldl (fun sorted item => putSorted item.1 item.2 sorted) sorted →
      entry ∈ items ∨ entry ∈ sorted := by
    intro items
    induction items with
    | nil => exact fun _ h => .inr h
    | cons item rest ih =>
      intro sorted h
      rcases ih _ h with h | h
      · exact .inl (List.mem_cons_of_mem _ h)
      · rcases mem_putSorted h with rfl | h
        · exact .inl (List.mem_cons_self ..)
        · exact .inr h
  exact (hput items [] h).resolve_right List.not_mem_nil

theorem putSorted_map (f : α → β) (name : String) (item : α) (items : List (String × α)) :
    putSorted name (f item) (items.map fun item => (item.1, f item.2))
      = (putSorted name item items).map fun item => (item.1, f item.2) := by
  induction items with
  | nil => rfl
  | cons head rest ih =>
    rw [List.map_cons, putSorted, putSorted, ih]
    split
    · rfl
    · split <;> rfl

theorem sortByName_map (f : α → β) (items : List (String × α)) :
    sortByName (items.map fun item => (item.1, f item.2))
      = (sortByName items).map fun item => (item.1, f item.2) := by
  have hput : ∀ sorted : List (String × α),
      (items.map fun item => (item.1, f item.2)).foldl
        (fun sorted item => putSorted item.1 item.2 sorted) (sorted.map fun item => (item.1, f item.2))
      = (items.foldl (fun sorted item => putSorted item.1 item.2 sorted) sorted).map
          fun item => (item.1, f item.2) := by
    induction items with
    | nil => exact fun _ => rfl
    | cons item rest ih =>
      intro sorted
      rw [List.map_cons, List.foldl_cons, List.foldl_cons, ← ih]
      exact congrArg (List.foldl _ · _) (putSorted_map f item.1 item.2 sorted)
  exact hput []

theorem putSorted_of_above {items : List (String × α)} (h : ∀ entry ∈ items, entry.1 < name) (item : α) :
    putSorted name item items = items ++ [(name, item)] := by
  induction items with
  | nil => rfl
  | cons head rest ih =>
    obtain ⟨hhead, hrest⟩ := List.forall_mem_cons.mp h
    rw [putSorted, if_neg (not_lt_of_gt hhead), if_neg (by simpa using ne_of_gt hhead), ih hrest,
      List.cons_append]

theorem sortByName_of_ascending {items : List (String × α)} (h : items.Pairwise fun a b => a.1 < b.1) :
    sortByName items = items := by
  have hput : ∀ front : List (String × α), (front ++ items).Pairwise (fun a b => a.1 < b.1) →
      items.foldl (fun sorted item => putSorted item.1 item.2 sorted) front = front ++ items := by
    clear h
    induction items with
    | nil => exact fun front _ => (List.append_nil front).symm
    | cons item rest ih =>
      intro front h
      have habove : ∀ entry ∈ front, entry.1 < item.1 := fun entry he =>
        (List.pairwise_append.mp h).2.2 entry he item (List.mem_cons_self ..)
      rw [List.foldl_cons, putSorted_of_above habove, ih _ (by simpa using h), List.append_assoc,
        List.singleton_append]
  exact hput [] h

theorem lookup_reverse {items : List (String × α)} (hn : (items.map (·.1)).Nodup) (name : String) :
    items.reverse.lookup name = items.lookup name := by
  have hreverse : (items.reverse.map (·.1)).Nodup := by
    rw [List.map_reverse]
    exact List.pairwise_reverse.mpr (hn.imp Ne.symm)
  ext item
  constructor
  · exact fun h => lookup_of_mem hn (List.mem_reverse.mp (mem_of_lookup h))
  · exact fun h => lookup_of_mem hreverse (List.mem_reverse.mpr (mem_of_lookup h))

namespace Json

def member? (name : String) : Json → Option Json
  | object members => members.reverse.lookup name
  | _ => none

theorem toFields_eq_map (members : List (String × Json)) :
    toFields members = members.map fun member => (member.1, member.2.toValue) := by
  induction members with
  | nil => rfl
  | cons member rest ih => rw [toFields, ih, List.map_cons]

theorem lookup_fields_toValue (json : Json) (name : String) :
    json.toValue.fields.lookup name = (json.member? name).map toValue := by
  cases json with
  | object members =>
    rw [toValue, Value.fields_object, lookup_sortByName, toFields_eq_map, ← List.map_reverse,
      lookup_map_snd, member?]
  | integer n =>
    rw [toValue]
    split <;> rfl
  | _ => rfl

end Json

namespace Value

theorem toJsonItems_eq_map (items : List Value) : toJsonItems items = items.map toJson := by
  induction items with
  | nil => rfl
  | cons item rest ih => rw [toJsonItems, ih, List.map_cons]

theorem toJsonMembers_eq_map (fields : List (String × Value)) :
    toJsonMembers fields = fields.map fun field => (field.1, field.2.toJson) := by
  induction fields with
  | nil => rfl
  | cons field rest ih => rw [toJsonMembers, ih, List.map_cons]

theorem member?_toJson {v : Value} (hn : (v.fields.map (·.1)).Nodup) (name : String) :
    v.toJson.member? name = (v.fields.lookup name).map toJson := by
  cases v with
  | object fields =>
    rw [fields_object] at hn ⊢
    have hnames : ((fields.map fun field => (field.1, field.2.toJson)).map (·.1)).Nodup := by
      rwa [List.map_map]
    rw [toJson, Json.member?, lookup_reverse (names_nodup_sortByName _), lookup_sortByName,
      toJsonMembers_eq_map, lookup_reverse hnames]
    exact lookup_map_snd ..
  | float x =>
    have hnone : ∀ y, (Json.ofBinary64 y).member? name = none := by
      intro y
      rw [Json.ofBinary64]
      split <;> rfl
    rw [toJson, Json.ofFloat]
    split
    · split
      · rfl
      · exact hnone x
    · exact hnone x
  | _ => rfl

end Value

end Positional
