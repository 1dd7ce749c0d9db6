import EmailMarkup.OrderedMap
import Mathlib.Data.List.Nodup

/-!
# Laws of ordered maps

`get?` and `keys` are the two views of an ordered map. A key is listed exactly if it has a value
(`mem_keys_iff`), and it is listed once (`nodup_keys`).

A map that is made of a list has under each key what the last pair of that key says
(`get?_ofList`).

Two laws go back from the views to the entries. An entry holds the value under its key
(`lookup_of_mem`), and the values in order are those under the keys in order
(`values_eq_filterMap`). What is done to every value can be done before a map is made from a list
(`values_ofList_map`).
-/

set_option autoImplicit false

namespace EmailMarkup.OrderedMap

variable {key : String} {β : Type}

variable {α : Type}

/-- A key is listed exactly if it has a value. -/
theorem mem_keys_iff {m : OrderedMap α} : key ∈ m.keys ↔ (m.get? key).isSome = true := by
  show key ∈ m.entries.map Prod.fst ↔ (lookup key m.entries).isSome = true
  generalize m.entries = entries
  induction entries with
  | nil => simp [lookup]
  | cons e rest ih =>
    obtain ⟨k, v⟩ := e
    by_cases h : k = key
    · simp [lookup, h]
    · simp only [List.map_cons, List.mem_cons, Ne.symm h, false_or, lookup, if_neg h, ih]

/-- A key that is not listed has no value. -/
theorem lookup_eq_none {entries : List (String × α)} (h : key ∉ entries.map Prod.fst) :
    lookup key entries = none := by
  induction entries with
  | nil => rfl
  | cons e rest ih =>
    rw [List.map_cons, List.mem_cons, not_or] at h
    rw [lookup, if_neg (Ne.symm h.1), ih h.2]

/-- A value that is found is in an entry of its key. -/
theorem mem_entries_of_get? {m : OrderedMap α} {value : α} (h : m.get? key = some value) :
    (key, value) ∈ m.entries := by
  replace h : lookup key m.entries = some value := h
  generalize m.entries = entries at h
  induction entries with
  | nil => cases h
  | cons e rest ih =>
    obtain ⟨k, v⟩ := e
    by_cases hk : k = key
    · rw [lookup, if_pos hk] at h
      cases h
      rw [hk]
      exact List.mem_cons_self
    · rw [lookup, if_neg hk] at h
      exact List.mem_cons_of_mem _ (ih h)

/-- A map without entries has no value. -/
theorem get?_of_isEmpty {m : OrderedMap α} (h : m.isEmpty = true) (key : String) :
    m.get? key = none := by
  rw [get?, List.isEmpty_iff.mp h]
  rfl

/-- A map with entries has a value. -/
theorem exists_get?_of_isEmpty_eq_false {m : OrderedMap α} (h : m.isEmpty = false) :
    ∃ key value, m.get? key = some value := by
  obtain ⟨e, rest, hentries⟩ := List.exists_cons_of_ne_nil (List.isEmpty_eq_false_iff.mp h)
  refine ⟨e.1, e.2, ?_⟩
  rw [get?, hentries, lookup, if_pos rfl]

theorem get?_erase (m : OrderedMap α) (key other : String) :
    (m.erase key).get? other = if other = key then none else m.get? other := by
  show lookup other (m.entries.filter fun e => decide (e.1 ≠ key)) =
    if other = key then none else lookup other m.entries
  generalize m.entries = entries
  induction entries with
  | nil => simp [lookup]
  | cons e rest ih =>
    obtain ⟨k, v⟩ := e
    by_cases hk : k = key
    · -- The entry goes; a search for another key would have passed over it.
      subst hk
      rw [List.filter_cons_of_neg (by simp), ih]
      by_cases ho : other = k
      · rw [if_pos ho, if_pos ho]
      · simp [lookup, ho, Ne.symm ho]
    · rw [List.filter_cons_of_pos (by simpa using hk)]
      by_cases hko : k = other
      · subst hko
        simp [lookup, hk]
      · simpa [lookup, hko] using ih

theorem keys_insert (m : OrderedMap α) (key : String) (value : α) :
    (m.insert key value).keys = if key ∈ m.keys then m.keys else m.keys ++ [key] :=
  map_fst_put key value m.entries

theorem nodup_keys (m : OrderedMap α) : m.keys.Nodup :=
  m.nodup

/-- A key that is not listed gets an entry at the end. -/
theorem put_of_notMem {entries : List (String × α)} (value : α) (h : key ∉ entries.map Prod.fst) :
    put key value entries = entries ++ [(key, value)] := by
  induction entries with
  | nil => rfl
  | cons e rest ih =>
    rw [List.map_cons, List.mem_cons, not_or] at h
    rw [put, if_neg (Ne.symm h.1), ih h.2]
    rfl

/-- Entries under new keys are added as they are. -/
theorem entries_insertAll (m : OrderedMap α) {pairs : List (String × α)}
    (h : (m.entries ++ pairs).map Prod.fst |>.Nodup) :
    (m.insertAll pairs).entries = m.entries ++ pairs := by
  induction pairs generalizing m with
  | nil => simp [insertAll]
  | cons e pairs ih =>
    have hnew : e.1 ∉ m.entries.map Prod.fst := by
      intro hmem
      rw [List.map_append, List.map_cons, List.nodup_append] at h
      exact h.2.2 e.1 hmem e.1 List.mem_cons_self rfl
    have hput : (m.insert e.1 e.2).entries = m.entries ++ [e] := put_of_notMem e.2 hnew
    have hrest := ih (m.insert e.1 e.2) (by rw [hput, List.append_assoc]; exact h)
    rw [hput, List.append_assoc] at hrest
    exact hrest

/-- The search for a key in one list and then in another. -/
theorem lookup_append (key : String) (front back : List (String × α)) :
    lookup key (front ++ back) = (lookup key front).or (lookup key back) := by
  induction front with
  | nil => simp [lookup]
  | cons e front ih =>
    by_cases h : e.1 = key
    · simp [lookup, h]
    · simp [lookup, h, ih]

/-- The search for a key among pairs that are made of other things. -/
theorem lookup_map (f : β → String) (g : β → α) (key : String) (xs : List β) :
    lookup key (xs.map fun x => (f x, g x)) = (xs.find? fun x => f x = key).map g := by
  induction xs with
  | nil => rfl
  | cons x xs ih =>
    by_cases h : f x = key
    · simp [lookup, h]
    · simp [lookup, h, ih]

/-- Of the pairs that are added to a map the last one of a key counts, and without any the map has
what it had. -/
theorem get?_insertAll (m : OrderedMap α) (pairs : List (String × α)) (key : String) :
    (m.insertAll pairs).get? key = (lookup key pairs.reverse).or (m.get? key) := by
  induction pairs generalizing m with
  | nil => rfl
  | cons pair pairs ih =>
    show ((m.insert pair.1 pair.2).insertAll pairs).get? key = _
    rw [ih, List.reverse_cons, lookup_append, Option.or_assoc]
    congr 1
    by_cases h : pair.1 = key
    · rw [← h, get?_insert_self]
      simp [lookup]
    · rw [get?_insert_of_ne m pair.2 (Ne.symm h)]
      simp [lookup, h]

/-- In a map made of a list the last pair of a key counts. -/
theorem get?_ofList (pairs : List (String × α)) (key : String) :
    (ofList pairs).get? key = lookup key pairs.reverse := by
  rw [ofList, get?_insertAll]
  exact Option.or_none

/-- A map is made of its entries. -/
theorem ofList_entries (m : OrderedMap α) : ofList m.entries = m := by
  have hentries : (ofList m.entries).entries = m.entries := by
    rw [ofList, entries_insertAll ∅ m.nodup]
    rfl
  cases m
  cases hofList : ofList _
  rw [hofList] at hentries
  subst hentries
  rfl

/-- Adding the entries of another map, whose values count. -/
theorem get?_insertAll_entries (m other : OrderedMap α) (key : String) :
    (m.insertAll other.entries).get? key = (other.get? key).or (m.get? key) := by
  rw [get?_insertAll, ← get?_ofList, ofList_entries]

/-- An entry holds the value under its key: no entry before it has the same key. -/
theorem lookup_of_mem {entries : List (String × α)} (hnodup : (entries.map Prod.fst).Nodup)
    {e : String × α} (he : e ∈ entries) : lookup e.1 entries = some e.2 := by
  induction entries with
  | nil => cases he
  | cons first rest ih =>
    rw [List.map_cons, List.nodup_cons] at hnodup
    rcases List.mem_cons.mp he with rfl | he
    · simp [lookup]
    · have hne : first.1 ≠ e.1 := by
        intro heq
        exact hnodup.1 (heq ▸ List.mem_map_of_mem he)
      simpa [lookup, hne] using ih hnodup.2 he

/-- The values in order are those under the keys in order. -/
theorem values_eq_filterMap (m : OrderedMap α) : m.values = m.keys.filterMap m.get? := by
  show m.entries.map Prod.snd =
    (m.entries.map Prod.fst).filterMap fun key => lookup key m.entries
  rw [List.filterMap_map, ← List.filterMap_eq_map]
  exact List.filterMap_congr fun e he => (lookup_of_mem m.nodup he).symm

/-- In a map whose values know their keys, the keys can be read off the values. -/
theorem map_values {m : OrderedMap α} {f : α → String}
    (h : ∀ key value, m.get? key = some value → f value = key) : m.values.map f = m.keys := by
  rw [values, keys, List.map_map]
  exact List.map_congr_left fun e he => h e.1 e.2 (lookup_of_mem m.nodup he)

theorem put_map (f : α → β) (key : String) (value : α) (entries : List (String × α)) :
    put key (f value) (entries.map fun (k, v) => (k, f v)) =
      (put key value entries).map fun (k, v) => (k, f v) := by
  induction entries with
  | nil => rfl
  | cons e rest ih =>
    by_cases h : e.1 = key
    · simp [put, h]
    · simp [put, h, ih]

/-- A function of the values can be applied before a map is made, or after. -/
theorem values_ofList_map (f : α → β) (pairs : List (String × α)) :
    (ofList (pairs.map fun (k, v) => (k, f v))).values = (ofList pairs).values.map f := by
  have hentries : ∀ (m : OrderedMap α) (m' : OrderedMap β),
      m'.entries = m.entries.map (fun (k, v) => (k, f v)) →
        (m'.insertAll (pairs.map fun (k, v) => (k, f v))).entries =
          (m.insertAll pairs).entries.map fun (k, v) => (k, f v) := by
    induction pairs with
    | nil => exact fun m m' h => h
    | cons e pairs ih =>
      intro m m' h
      refine ih (m.insert e.1 e.2) (m'.insert e.1 (f e.2)) ?_
      show put e.1 (f e.2) m'.entries = _
      rw [h, put_map]
      rfl
  rw [values, values, ofList, ofList, hentries ∅ ∅ rfl, List.map_map, List.map_map]
  rfl

end EmailMarkup.OrderedMap
