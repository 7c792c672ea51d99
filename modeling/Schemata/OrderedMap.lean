/-!
Maps from names to values. The names stand in the order in which they were first written; writing
a name again keeps its place and replaces its value.
-/

namespace Schemata

variable {α β : Type}

def writeEntry (key : String) (value : α) : List (String × α) → List (String × α)
  | [] => [(key, value)]
  | (k, v) :: rest => if k = key then (k, value) :: rest else (k, v) :: writeEntry key value rest

theorem writeEntry_keys (key : String) (value : α) (entries : List (String × α)) :
    (writeEntry key value entries).map Prod.fst =
      if key ∈ entries.map Prod.fst then entries.map Prod.fst else entries.map Prod.fst ++ [key] := by
  induction entries with
  | nil => simp [writeEntry]
  | cons e rest ih =>
    obtain ⟨k, v⟩ := e
    by_cases h : k = key
    · simp [writeEntry, h]
    · have h' : key ≠ k := fun e => h e.symm
      by_cases hm : key ∈ rest.map Prod.fst
      · simp only [writeEntry, h, if_false, List.map_cons, ih, hm, if_true, List.mem_cons, or_true]
      · simp only [writeEntry, h, if_false, List.map_cons, ih, hm, List.mem_cons, h', or_self,
          List.cons_append]

theorem lookup_cons_eq (key other : String) (value : α) (rest : List (String × α)) :
    ((key, value) :: rest).lookup other = if other = key then some value else rest.lookup other := by
  rw [List.lookup_cons]
  by_cases h : other = key
  · simp [h]
  · have hb : (other == key) = false := by simpa using h
    simp only [hb, h, if_false]

theorem writeEntry_lookup (key other : String) (value : α) (entries : List (String × α)) :
    (writeEntry key value entries).lookup other =
      if other = key then some value else entries.lookup other := by
  induction entries with
  | nil => simp only [writeEntry, lookup_cons_eq]
  | cons e rest ih =>
    obtain ⟨k, v⟩ := e
    by_cases hk : k = key
    · subst hk
      by_cases h : other = k <;> simp only [writeEntry, if_true, lookup_cons_eq, h, if_false]
    · by_cases h : other = k
      · subst h; simp only [writeEntry, hk, if_false, lookup_cons_eq, if_true]
      · simp only [writeEntry, hk, h, if_false, lookup_cons_eq, ih]

structure OrderedMap (α : Type) where
  entries : List (String × α)
  keys_nodup : (entries.map Prod.fst).Nodup
deriving DecidableEq

namespace OrderedMap

def empty : OrderedMap α := ⟨[], by simp⟩

instance : Inhabited (OrderedMap α) := ⟨empty⟩

def keys (m : OrderedMap α) : List String := m.entries.map Prod.fst

def values (m : OrderedMap α) : List α := m.entries.map Prod.snd

def size (m : OrderedMap α) : Nat := m.entries.length

def isEmpty (m : OrderedMap α) : Bool := m.entries.isEmpty

def get? (m : OrderedMap α) (key : String) : Option α := m.entries.lookup key

def contains (m : OrderedMap α) (key : String) : Bool := (m.get? key).isSome

def insert (m : OrderedMap α) (key : String) (value : α) : OrderedMap α where
  entries := writeEntry key value m.entries
  keys_nodup := by
    rw [writeEntry_keys]
    by_cases h : key ∈ m.entries.map Prod.fst
    · simpa only [h, if_true] using m.keys_nodup
    · simp only [h, if_false, List.nodup_append]
      exact ⟨m.keys_nodup, by simp, fun a ha b hb e => h (by simp_all)⟩

def modify (m : OrderedMap α) (key : String) (initial : α) (f : α → α) : OrderedMap α :=
  m.insert key (f ((m.get? key).getD initial))

def ofList (pairs : List (String × α)) : OrderedMap α :=
  pairs.foldl (fun m p => m.insert p.1 p.2) empty

theorem empty_get? (key : String) : (empty : OrderedMap α).get? key = none := rfl

theorem insert_get? (m : OrderedMap α) (key other : String) (value : α) :
    (m.insert key value).get? other = if other = key then some value else m.get? other :=
  writeEntry_lookup key other value m.entries

theorem insert_keys (m : OrderedMap α) (key : String) (value : α) :
    (m.insert key value).keys = if key ∈ m.keys then m.keys else m.keys ++ [key] :=
  writeEntry_keys key value m.entries

theorem modify_get? (m : OrderedMap α) (key other : String) (initial : α) (f : α → α) :
    (m.modify key initial f).get? other =
      if other = key then some (f ((m.get? key).getD initial)) else m.get? other :=
  m.insert_get? key other _

end OrderedMap

end Schemata
