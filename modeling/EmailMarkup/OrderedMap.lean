/-!
# Maps that remember the order of their keys

Attributes, fonts and styles are written in the order in which they first came up. A map is a list
of entries in which no key comes twice; `insert` gives a key that is there a new value in its old
place and adds any other key at the end. That no key comes twice is part of the type, so every
operation that makes a map also shows it (`nodup_put` for `insert`).
-/

namespace EmailMarkup

/-- Values under texts, in the order of their first insertion. -/
structure OrderedMap (α : Type) where
  entries : List (String × α)
  /-- No key comes twice. -/
  nodup : (entries.map Prod.fst).Nodup
  deriving DecidableEq, Repr

namespace OrderedMap

variable {α : Type}

/-- The map without entries. -/
def empty : OrderedMap α :=
  { entries := [], nodup := List.nodup_nil }

instance : EmptyCollection (OrderedMap α) := ⟨empty⟩

instance : Inhabited (OrderedMap α) := ⟨empty⟩

/-- Whether a map has no entries. -/
def isEmpty (m : OrderedMap α) : Bool :=
  m.entries.isEmpty

/-- The first value under a key. -/
def lookup (key : String) : List (String × α) → Option α
  | [] => none
  | (k, v) :: rest => if k = key then some v else lookup key rest

/-- The value under a key. -/
def get? (m : OrderedMap α) (key : String) : Option α :=
  lookup key m.entries

/-- Whether a key is there. -/
def contains (m : OrderedMap α) (key : String) : Bool :=
  (m.get? key).isSome

/-- Gives the first entry of a key a value, or adds an entry at the end. -/
def put (key : String) (value : α) : List (String × α) → List (String × α)
  | [] => [(key, value)]
  | (k, v) :: rest => if k = key then (k, value) :: rest else (k, v) :: put key value rest

/-- A new key is listed at the end, and a known one stays where it is. -/
theorem map_fst_put (key : String) (value : α) (entries : List (String × α)) :
    (put key value entries).map Prod.fst =
      if key ∈ entries.map Prod.fst then entries.map Prod.fst
      else entries.map Prod.fst ++ [key] := by
  induction entries with
  | nil => simp [put]
  | cons e rest ih =>
    obtain ⟨k, v⟩ := e
    by_cases h : k = key
    · simp [put, h]
    · simp only [put, if_neg h, List.map_cons, ih, List.mem_cons, Ne.symm h, false_or]
      split
      · rfl
      · rfl

/-- Putting a value under a key lists no key twice. -/
theorem nodup_put (key : String) (value : α) {entries : List (String × α)}
    (h : (entries.map Prod.fst).Nodup) : ((put key value entries).map Prod.fst).Nodup := by
  rw [map_fst_put]
  split
  · exact h
  · rename_i hnew
    rw [List.nodup_append]
    refine ⟨h, List.nodup_cons.mpr ⟨List.not_mem_nil, List.nodup_nil⟩, ?_⟩
    intro k hk k' hk' heq
    rw [List.mem_singleton.mp hk'] at heq
    exact hnew (heq ▸ hk)

/-- Gives a key a value. -/
def insert (m : OrderedMap α) (key : String) (value : α) : OrderedMap α :=
  { entries := put key value m.entries, nodup := nodup_put key value m.nodup }

/-- Keeps the entries that satisfy `p`. -/
def filter (m : OrderedMap α) (p : String × α → Bool) : OrderedMap α :=
  { entries := m.entries.filter p, nodup := m.nodup.sublist (List.filter_sublist.map Prod.fst) }

/-- Takes a key out. -/
def erase (m : OrderedMap α) (key : String) : OrderedMap α :=
  m.filter fun (k, _) => k ≠ key

/-- Gives the keys of a list their values, from left to right: the last value counts, in the place
of the first. -/
def insertAll (m : OrderedMap α) (pairs : List (String × α)) : OrderedMap α :=
  pairs.foldl (fun m (k, v) => m.insert k v) m

/-- The map of a list of pairs. -/
def ofList (pairs : List (String × α)) : OrderedMap α :=
  insertAll ∅ pairs

/-- The keys, in order. -/
def keys (m : OrderedMap α) : List String :=
  m.entries.map Prod.fst

/-- The values, in order. -/
def values (m : OrderedMap α) : List α :=
  m.entries.map Prod.snd

/-- Looking up a key after a value was put under it. -/
@[simp] theorem lookup_put_self (key : String) (value : α) (entries : List (String × α)) :
    lookup key (put key value entries) = some value := by
  induction entries with
  | nil => simp [put, lookup]
  | cons e rest ih =>
    obtain ⟨k, v⟩ := e
    by_cases h : k = key <;> simp [put, lookup, h, ih]

/-- Putting a value under one key leaves the others alone. -/
theorem lookup_put_of_ne {key other : String} (value : α) (h : other ≠ key)
    (entries : List (String × α)) :
    lookup other (put key value entries) = lookup other entries := by
  induction entries with
  | nil => simp [put, lookup, Ne.symm h]
  | cons e rest ih =>
    obtain ⟨k, v⟩ := e
    by_cases hk : k = key
    -- The entry that changed is under the other key, so it is passed over before and after.
    · subst hk; simp [put, lookup, Ne.symm h]
    · simp only [put, if_neg hk, lookup, ih]

/-- The value under a key just inserted. -/
@[simp] theorem get?_insert_self (m : OrderedMap α) (key : String) (value : α) :
    (m.insert key value).get? key = some value :=
  lookup_put_self key value m.entries

/-- An insertion leaves other keys alone. -/
theorem get?_insert_of_ne (m : OrderedMap α) {key other : String} (value : α) (h : other ≠ key) :
    (m.insert key value).get? other = m.get? other :=
  lookup_put_of_ne value h m.entries

end OrderedMap

end EmailMarkup
