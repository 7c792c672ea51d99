import Mathlib.Data.List.Induction
import Mathlib.Data.List.Nodup
import Schemata.OrderedMap

namespace Schemata

variable {α β : Type}

theorem writeEntry_of_not_mem {key : String} {entries : List (String × α)} (value : α)
    (h : key ∉ entries.map Prod.fst) : writeEntry key value entries = entries ++ [(key, value)] := by
  induction entries with
  | nil => rfl
  | cons e entries ih =>
    simp only [List.map_cons, List.mem_cons, not_or] at h
    rw [writeEntry, if_neg (Ne.symm h.1), ih h.2, List.cons_append]

theorem lookup_eq_some_iff {entries : List (String × α)} (h : (entries.map Prod.fst).Nodup) {key : String}
    {value : α} : entries.lookup key = some value ↔ (key, value) ∈ entries := by
  induction entries with
  | nil => simp
  | cons e entries ih =>
    obtain ⟨k, v⟩ := e
    rw [List.map_cons, List.nodup_cons] at h
    rw [lookup_cons_eq, List.mem_cons, Prod.mk.injEq]
    by_cases hk : key = k
    · subst hk
      have hv : (key, value) ∉ entries := fun hm => h.1 (List.mem_map.2 ⟨_, hm, rfl⟩)
      simp only [if_true, Option.some.injEq, hv, or_false, true_and, eq_comm]
    · simp only [hk, if_false, false_and, false_or, ih h.2]

theorem writeEntry_of_mem {key : String} {entries : List (String × α)} (value : α)
    (hn : (entries.map Prod.fst).Nodup) (h : key ∈ entries.map Prod.fst) :
    writeEntry key value entries = entries.map fun e => (e.1, if e.1 = key then value else e.2) := by
  induction entries with
  | nil => simp at h
  | cons e entries ih =>
    obtain ⟨k, v⟩ := e
    rw [List.map_cons, List.nodup_cons] at hn
    rw [writeEntry, List.map_cons]
    by_cases hk : k = key
    · subst hk
      have others : entries.map (fun e => (e.1, if e.1 = k then value else e.2)) = entries := by
        rw [List.map_congr_left, List.map_id]
        intro e he
        have hne : e.1 ≠ k := fun hk => hn.1 (List.mem_map.2 ⟨e, he, hk⟩)
        simp only [hne, if_false, id_eq]
      simp only [if_true, others]
    · have h' : key ∈ entries.map Prod.fst := by simpa [Ne.symm hk] using h
      simp only [hk, if_false, ih hn.2 h']

theorem writeEntry_map (f : String → α → β) (key : String) (value : α) (entries : List (String × α)) :
    (writeEntry key value entries).map (fun e => (e.1, f e.1 e.2)) =
      writeEntry key (f key value) (entries.map fun e => (e.1, f e.1 e.2)) := by
  induction entries with
  | nil => rfl
  | cons e entries ih =>
    obtain ⟨k, v⟩ := e
    rw [writeEntry, List.map_cons, writeEntry]
    by_cases hk : k = key
    · simp only [hk, if_true, List.map_cons]
    · simp only [hk, if_false, List.map_cons, ih]

theorem writeEntry_of_lookup {key : String} {value : α} {entries : List (String × α)}
    (h : entries.lookup key = some value) : writeEntry key value entries = entries := by
  induction entries with
  | nil => cases h
  | cons e entries ih =>
    obtain ⟨k, v⟩ := e
    rw [lookup_cons_eq] at h
    rw [writeEntry]
    by_cases hk : k = key
    · subst hk
      rw [if_pos rfl, Option.some.injEq] at h
      rw [if_pos rfl, h]
    · rw [if_neg (Ne.symm hk)] at h
      rw [if_neg hk, ih h]

theorem mem_writeEntry {key : String} {value : α} {entries : List (String × α)} {e : String × α}
    (h : e ∈ writeEntry key value entries) : e = (key, value) ∨ e ∈ entries := by
  induction entries with
  | nil => exact .inl (List.mem_singleton.1 h)
  | cons d entries ih =>
    rw [writeEntry] at h
    split at h
    · next hk =>
      rw [hk, List.mem_cons] at h
      exact h.imp_right (List.mem_cons_of_mem d)
    · rcases List.mem_cons.1 h with rfl | h
      · exact .inr List.mem_cons_self
      · exact (ih h).imp_right (List.mem_cons_of_mem d)

namespace OrderedMap

theorem eq_of_entries {m m' : OrderedMap α} (h : m.entries = m'.entries) : m = m' := by
  cases m
  cases m'
  cases h
  rfl

@[simp] theorem empty_keys : (empty : OrderedMap α).keys = [] := rfl

theorem get?_eq_some_iff {m : OrderedMap α} {key : String} {value : α} :
    m.get? key = some value ↔ (key, value) ∈ m.entries :=
  lookup_eq_some_iff m.keys_nodup

theorem mem_keys_iff {m : OrderedMap α} {key : String} : key ∈ m.keys ↔ ∃ value, m.get? key = some value := by
  simp only [keys, List.mem_map, Prod.exists, exists_and_right, exists_eq_right, get?_eq_some_iff]

theorem contains_iff {m : OrderedMap α} {key : String} : m.contains key = true ↔ key ∈ m.keys := by
  rw [contains, Option.isSome_iff_exists, mem_keys_iff]

theorem mem_values_iff {m : OrderedMap α} {value : α} : value ∈ m.values ↔ ∃ key, m.get? key = some value := by
  simp only [values, List.mem_map, Prod.exists, exists_eq_right, get?_eq_some_iff]

theorem filter_entries (m : OrderedMap α) (key : String) :
    (m.entries.filter fun e => e.1 = key) = ((m.get? key).map fun value => (key, value)).toList := by
  obtain ⟨entries, h⟩ := m
  simp only [get?]
  induction entries with
  | nil => rfl
  | cons e entries ih =>
    obtain ⟨k, v⟩ := e
    rw [List.map_cons, List.nodup_cons] at h
    rw [List.filter_cons, lookup_cons_eq, ih h.2]
    by_cases hk : key = k
    · subst hk
      have hl : entries.lookup key = none := by
        rw [Option.eq_none_iff_forall_not_mem]
        intro w hw
        exact h.1 (List.mem_map.2 ⟨_, (lookup_eq_some_iff h.2).1 hw, rfl⟩)
      simp [hl]
    · simp [hk, Ne.symm hk]

theorem get?_flatMap (m : OrderedMap α) (key : String) (f : α → List β) :
    ((m.get? key).map f).getD [] = (m.entries.filter fun e => e.1 = key).flatMap fun e => f e.2 := by
  rw [filter_entries]
  cases m.get? key <;> simp

theorem insert_entries {m : OrderedMap α} {key : String} (value : α) (h : key ∉ m.keys) :
    (m.insert key value).entries = m.entries ++ [(key, value)] :=
  writeEntry_of_not_mem value h

theorem insert_keys_of_not_mem {m : OrderedMap α} {key : String} (value : α) (h : key ∉ m.keys) :
    (m.insert key value).keys = m.keys ++ [key] := by
  rw [insert_keys, if_neg h]

theorem foldl_insert_entries {m : OrderedMap α} {pairs : List (String × α)}
    (h : (m.keys ++ pairs.map Prod.fst).Nodup) :
    (pairs.foldl (fun m p => m.insert p.1 p.2) m).entries = m.entries ++ pairs := by
  induction pairs generalizing m with
  | nil => simp
  | cons p pairs ih =>
    have hp : p.1 ∉ m.keys := fun hk => (List.disjoint_of_nodup_append h) hk (by simp)
    rw [List.foldl_cons, ih, insert_entries _ hp, List.append_assoc, List.singleton_append]
    rwa [insert_keys_of_not_mem _ hp, List.append_assoc, List.singleton_append]

theorem ofList_entries {pairs : List (String × α)} (h : (pairs.map Prod.fst).Nodup) :
    (ofList pairs).entries = pairs :=
  foldl_insert_entries h

theorem mem_foldl_insert {m : OrderedMap α} {pairs : List (String × α)} {e : String × α}
    (h : e ∈ (pairs.foldl (fun m p => m.insert p.1 p.2) m).entries) : e ∈ m.entries ∨ e ∈ pairs := by
  induction pairs generalizing m with
  | nil => exact .inl h
  | cons p pairs ih =>
    rcases ih h with h | h
    · rcases mem_writeEntry h with rfl | h
      · exact .inr List.mem_cons_self
      · exact .inl h
    · exact .inr (List.mem_cons_of_mem p h)

theorem mem_of_mem_ofList {pairs : List (String × α)} {e : String × α} (h : e ∈ (ofList pairs).entries) : e ∈ pairs :=
  (mem_foldl_insert h).resolve_left List.not_mem_nil

theorem ofList_get? {pairs : List (String × α)} (h : (pairs.map Prod.fst).Nodup) {key : String} {value : α} :
    (ofList pairs).get? key = some value ↔ (key, value) ∈ pairs := by
  rw [get?_eq_some_iff, ofList_entries h]

theorem insert_entries_of_mem {m : OrderedMap α} {key : String} (value : α) (h : key ∈ m.keys) :
    (m.insert key value).entries = m.entries.map fun e => (e.1, if e.1 = key then value else e.2) :=
  writeEntry_of_mem value m.keys_nodup h

def mapValues (m : OrderedMap α) (f : String → α → β) : OrderedMap β where
  entries := m.entries.map fun e => (e.1, f e.1 e.2)
  keys_nodup := by
    rw [List.map_map]
    exact m.keys_nodup

theorem mapValues_entries (m : OrderedMap α) (f : String → α → β) :
    (m.mapValues f).entries = m.entries.map fun e => (e.1, f e.1 e.2) := rfl

theorem mapValues_get? {m : OrderedMap α} {f : String → α → β} {key : String} {value : β} :
    (m.mapValues f).get? key = some value ↔ ∃ old, m.get? key = some old ∧ f key old = value := by
  simp only [get?_eq_some_iff, mapValues, List.mem_map, Prod.mk.injEq, Prod.exists]
  constructor
  · rintro ⟨k, old, h, rfl, rfl⟩
    exact ⟨old, h, rfl⟩
  · rintro ⟨old, h, rfl⟩
    exact ⟨key, old, h, rfl, rfl⟩

theorem mapValues_get?_eq (m : OrderedMap α) (f : String → α → β) (key : String) :
    (m.mapValues f).get? key = (m.get? key).map (f key) := by
  apply Option.ext
  intro value
  rw [mapValues_get?, Option.map_eq_some_iff]

theorem mapValues_contains (m : OrderedMap α) (f : String → α → β) (key : String) :
    (m.mapValues f).contains key = m.contains key := by
  rw [contains, contains, mapValues_get?_eq, Option.isSome_map]

theorem mapValues_insert (m : OrderedMap α) (f : String → α → β) (key : String) (value : α) :
    (m.insert key value).mapValues f = (m.mapValues f).insert key (f key value) :=
  eq_of_entries (writeEntry_map f key value m.entries)

theorem mapValues_foldl_insert (m : OrderedMap α) (f : String → α → β) (pairs : List (String × α)) :
    (pairs.foldl (fun m p => m.insert p.1 p.2) m).mapValues f =
      (pairs.map fun p => (p.1, f p.1 p.2)).foldl (fun m p => m.insert p.1 p.2) (m.mapValues f) := by
  induction pairs generalizing m with
  | nil => rfl
  | cons p pairs ih => rw [List.foldl_cons, List.map_cons, List.foldl_cons, ih, mapValues_insert]

theorem ofList_mapValues (pairs : List (String × α)) (f : String → α → β) :
    (ofList pairs).mapValues f = ofList (pairs.map fun p => (p.1, f p.1 p.2)) :=
  mapValues_foldl_insert empty f pairs

theorem ofList_concat (pairs : List (String × α)) (p : String × α) :
    ofList (pairs ++ [p]) = (ofList pairs).insert p.1 p.2 :=
  List.foldl_append

theorem ofList_keys (pairs : List (String × α)) : (ofList pairs).keys = (pairs.map Prod.fst).eraseDups := by
  induction pairs using List.reverseRecOn with
  | nil => rfl
  | append_singleton pairs p ih =>
    rw [ofList_concat, insert_keys, ih, List.map_append, List.map_singleton, List.eraseDups_append]
    by_cases h : p.1 ∈ pairs.map Prod.fst
    · have none_new : [p.1].removeAll (pairs.map Prod.fst) = [] := by simpa [List.removeAll] using h
      rw [if_pos (List.mem_eraseDups.2 h), none_new, List.eraseDups_nil, List.append_nil]
    · have new : [p.1].removeAll (pairs.map Prod.fst) = [p.1] := by simpa [List.removeAll] using h
      rw [if_neg (mt List.mem_eraseDups.1 h), new]
      rfl

theorem ofList_get?_eq (pairs : List (String × α)) (key : String) :
    (ofList pairs).get? key = pairs.reverse.lookup key := by
  induction pairs using List.reverseRecOn with
  | nil => rfl
  | append_singleton pairs p ih =>
    rw [ofList_concat, insert_get?, ih, List.reverse_append, List.reverse_singleton, List.singleton_append,
      lookup_cons_eq]

theorem insert_of_get? {m : OrderedMap α} {key : String} {value : α} (h : m.get? key = some value) :
    m.insert key value = m :=
  eq_of_entries (writeEntry_of_lookup h)

end OrderedMap

end Schemata
