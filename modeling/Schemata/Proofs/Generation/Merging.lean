import Schemata.Proofs.Generation.Meaning

namespace Schemata

theorem ObjectType.extend_decides {o : ObjectType} {e : Extension} {fault : GenerateError → Prop}
    (hd : ∀ name, List.Duplicate name (o.fields.keys ++ e.fields.keys) →
      fault (.duplicateField e.typeName name)) :
    (o.extend e).Decides (o.fields.keys ++ e.fields.keys).Nodup (o.merge e) fault := by
  have step : ∀ f ∈ e.fields.entries, ∀ fields : OrderedMap Field,
      (f.1 ∈ fields.keys → List.Duplicate f.1 (o.fields.keys ++ e.fields.entries.map Prod.fst)) →
      (insertNew (.duplicateField e.typeName f.1) f.1 f.2 fields).Decides (f.1 ∉ fields.keys ∧ True)
        (fields.insert f.1 f.2) fault :=
    fun f _ fields hm => insertNew_decides fun hk => hd _ (hm hk)
  have all := foldlM_insert_decides step
  rw [List.map_id'] at all
  refine (all.map fun fields => { o.merge e with fields }).iff ?_
  simp [OrderedMap.keys]

theorem ObjectType.merge_keys {o : ObjectType} {e : Extension} (h : (o.fields.keys ++ e.fields.keys).Nodup) :
    (o.merge e).fields.keys = o.fields.keys ++ e.fields.keys := by
  rw [OrderedMap.keys, merge, OrderedMap.foldl_insert_entries h, List.map_append]
  rfl

def addName (names : List String) (name : String) : List String := if name ∈ names then names else names ++ [name]

theorem foldl_addName (names more : List String) :
    more.foldl addName names = names ++ (more.removeAll names).eraseDups := by
  induction more generalizing names with
  | nil => simp
  | cons name more ih =>
    rw [List.foldl_cons, addName, ih]
    by_cases hn : name ∈ names
    · simp [hn, List.cons_removeAll]
    · have hr : more.removeAll (names ++ [name]) = (more.removeAll names).filter fun n => !n == name := by
        rw [List.removeAll, List.removeAll, List.filter_filter]
        apply List.filter_congr
        intro n _
        by_cases h : n = name <;> simp [h]
      simp [hn, List.cons_removeAll, List.eraseDups_cons, hr]

theorem foldl_addName_filter {names : List String} {name : String} (more : List String) (hn : name ∈ names) :
    (more.filter fun n => !n == name).foldl addName names = more.foldl addName names := by
  induction more generalizing names with
  | nil => rfl
  | cons n more ih =>
    by_cases h : n = name
    · subst h
      simpa [addName, hn] using ih hn
    · have ha : name ∈ addName names n := by
        rw [addName]
        split
        · exact hn
        · exact List.mem_append_left _ hn
      simpa [h] using ih ha

theorem foldl_addName_eraseDups (names more : List String) :
    more.eraseDups.foldl addName names = more.foldl addName names := by
  match more with
  | [] => rfl
  | name :: more =>
    have hn : name ∈ addName names name := by
      rw [addName]
      split
      · assumption
      · exact List.mem_append_right _ (List.mem_singleton_self name)
    rw [List.eraseDups_cons, List.foldl_cons, List.foldl_cons, foldl_addName_eraseDups,
      foldl_addName_filter more hn]
termination_by more.length
decreasing_by exact Nat.lt_succ_of_le (List.length_filter_le _ _)

theorem NamedRef.foldl_interfaces (names more : List String) :
    (NamedRef.interfaces more).foldl (fun refs ref =>
      if refs.any fun r => r.name = ref.name then refs else refs ++ [ref]) (NamedRef.interfaces names) =
      NamedRef.interfaces (names ++ more) := by
  have added (refs : List String) (others : List String) :
      (others.map fun name => (⟨name, .interface⟩ : NamedRef)).foldl (fun refs ref =>
        if refs.any fun r => r.name = ref.name then refs else refs ++ [ref])
        (refs.map fun name => ⟨name, .interface⟩) =
      (others.foldl addName refs).map fun name => ⟨name, .interface⟩ := by
    induction others generalizing refs with
    | nil => rfl
    | cons name others ih =>
      rw [List.map_cons, List.foldl_cons, List.foldl_cons, ← ih, addName]
      by_cases hn : name ∈ refs <;> simp [hn]
  have known : more.removeAll names.eraseDups = more.removeAll names := by
    simp [List.removeAll, List.mem_eraseDups]
  rw [interfaces, interfaces, added, foldl_addName_eraseDups, foldl_addName, known, ← List.eraseDups_append]
  rfl

namespace ObjectType

variable {o : ObjectType} {es : List Extension}

@[simp] theorem foldl_merge_name : (es.foldl merge o).name = o.name := by
  induction es generalizing o with
  | nil => rfl
  | cons e es ih => exact ih

@[simp] theorem foldl_merge_description : (es.foldl merge o).description = o.description := by
  induction es generalizing o with
  | nil => rfl
  | cons e es ih => exact ih

theorem foldl_merge_fields (h : (o.fields.keys ++ es.flatMap fun e => e.fields.keys).Nodup) :
    (es.foldl merge o).fields.entries = o.fields.entries ++ es.flatMap fun e => e.fields.entries := by
  induction es generalizing o with
  | nil => simp
  | cons e es ih =>
    rw [List.flatMap_cons, ← List.append_assoc] at h
    have hn : (o.fields.keys ++ e.fields.keys).Nodup := h.sublist (List.sublist_append_left _ _)
    rw [← merge_keys hn] at h
    rw [List.foldl_cons, ih h, List.flatMap_cons, ← List.append_assoc]
    exact congrArg (· ++ _) (OrderedMap.foldl_insert_entries hn)

theorem foldl_merge_interfaces {α : Type} {f : α → Extension} {as : List α} {names : List String}
    {more : α → List String} (ho : o.interfaces = NamedRef.interfaces names)
    (he : ∀ a ∈ as, (f a).interfaces = NamedRef.interfaces (more a)) :
    ((as.map f).foldl merge o).interfaces = NamedRef.interfaces (names ++ as.flatMap more) := by
  induction as generalizing o names with
  | nil => simpa using ho
  | cons a as ih =>
    have hm : (o.merge (f a)).interfaces = NamedRef.interfaces (names ++ more a) := by
      rw [merge, ho, he a List.mem_cons_self]
      exact NamedRef.foldl_interfaces names (more a)
    rw [List.map_cons, List.foldl_cons, ih hm fun b hb => he b (List.mem_cons_of_mem _ hb), List.flatMap_cons,
      List.append_assoc]

end ObjectType

namespace Registry

variable {r : Registry} {fault : GenerateError → Prop}

theorem extend_decides {e : Extension} {o : ObjectType} (ho : r.objects.get? e.typeName = some o)
    (hd : ∀ name, List.Duplicate name (o.fields.keys ++ e.fields.keys) →
      fault (.duplicateField e.typeName name)) :
    (r.extend e).Decides (o.fields.keys ++ e.fields.keys).Nodup
      { r with objects := r.objects.insert e.typeName (o.merge e) } fault := by
  rw [extend, ho]
  exact (ObjectType.extend_decides hd).map fun o => { r with objects := r.objects.insert e.typeName o }

theorem extended_nil (r : Registry) : r.extended [] = r := by
  have h : (r.objects.mapValues fun _ o => o) = r.objects := OrderedMap.eq_of_entries (List.map_id _)
  rw [extended]
  simp only [List.filter_nil, List.foldl_nil, h]

theorem extended_cons {e : Extension} {es : List Extension} {o : ObjectType}
    (ho : r.objects.get? e.typeName = some o) :
    ({ r with objects := r.objects.insert e.typeName (o.merge e) } : Registry).extended es =
      r.extended (e :: es) := by
  have hk : e.typeName ∈ r.objects.keys := OrderedMap.mem_keys_iff.2 ⟨o, ho⟩
  simp only [extended, mk.injEq, and_true]
  apply OrderedMap.eq_of_entries
  rw [OrderedMap.mapValues_entries, OrderedMap.mapValues_entries, OrderedMap.insert_entries_of_mem _ hk,
    List.map_map]
  apply List.map_congr_left
  rintro ⟨type, o'⟩ he
  by_cases hn : type = e.typeName
  · subst hn
    obtain rfl : o = o' := Option.some.inj (ho.symm.trans (OrderedMap.get?_eq_some_iff.2 he))
    simp
  · simp [hn, Ne.symm hn]

def fieldNames (r : Registry) (es : List Extension) (type : String) : List String :=
  ((r.objects.get? type).map fun o => o.fields.keys).getD [] ++
    (es.filter fun e => e.typeName = type).flatMap fun e => e.fields.keys

theorem fieldNames_cons {e : Extension} {es : List Extension} {o : ObjectType}
    (ho : r.objects.get? e.typeName = some o) :
    r.fieldNames (e :: es) e.typeName = o.fields.keys ++ e.fields.keys ++
      (es.filter fun e' => e'.typeName = e.typeName).flatMap fun e => e.fields.keys := by
  simp [fieldNames, ho]

theorem fieldNames_insert {e : Extension} {es : List Extension} {o : ObjectType}
    (ho : r.objects.get? e.typeName = some o) (hn : (o.fields.keys ++ e.fields.keys).Nodup) (type : String) :
    ({ r with objects := r.objects.insert e.typeName (o.merge e) } : Registry).fieldNames es type =
      r.fieldNames (e :: es) type := by
  by_cases ht : type = e.typeName
  · subst ht
    rw [fieldNames_cons ho, fieldNames, OrderedMap.insert_get?, if_pos rfl, Option.map_some, Option.getD_some,
      ObjectType.merge_keys hn]
  · simp [fieldNames, OrderedMap.insert_get?, ht, Ne.symm ht]

theorem foldlM_extend_decides {es : List Extension} (ho : ∀ e ∈ es, e.typeName ∈ r.objects.keys)
    (hd : ∀ type name, List.Duplicate name (r.fieldNames es type) → fault (.duplicateField type name)) :
    (es.foldlM extend r).Decides (∀ type, (r.fieldNames es type).Nodup) (r.extended es) fault := by
  induction es generalizing r with
  | nil =>
    rw [extended_nil]
    refine (Except.Decides.ok r).iff (iff_of_true trivial fun type => ?_)
    rw [fieldNames, List.filter_nil, List.flatMap_nil, List.append_nil]
    cases r.objects.get? type with
    | none => exact List.nodup_nil
    | some o => exact o.fields.keys_nodup
  | cons e es ih =>
    obtain ⟨o, he⟩ := OrderedMap.mem_keys_iff.1 (ho e List.mem_cons_self)
    have first : (o.fields.keys ++ e.fields.keys).Sublist (r.fieldNames (e :: es) e.typeName) := by
      rw [fieldNames_cons he]
      exact List.sublist_append_left _ _
    rw [List.foldlM_cons, ← extended_cons he]
    refine ((extend_decides he fun name h => hd _ name (h.mono_sublist first)).bind fun hn => ih ?_ ?_).iff ?_
    · intro e' he'
      have hk := ho e' (List.mem_cons_of_mem _ he')
      rwa [OrderedMap.insert_keys, if_pos (OrderedMap.mem_keys_iff.2 ⟨o, he⟩)]
    · intro type name h
      rw [fieldNames_insert he hn] at h
      exact hd type name h
    · constructor
      · rintro ⟨hn, h⟩ type
        exact fieldNames_insert he hn type ▸ h type
      · intro h
        have hn := (h e.typeName).sublist first
        exact ⟨hn, fun type => (fieldNames_insert he hn type).symm ▸ h type⟩

end Registry

end Schemata
