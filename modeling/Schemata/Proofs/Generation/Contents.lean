import Schemata.Proofs.Generation.Acceptance

namespace Schemata

variable {α β : Type} {m : Implementations} {d : Document}

theorem object_bodies (hn : d.declaredNames.Nodup) {type : String} {o : ObjectType}
    (h : (d.base m).objects.get? type = some o) :
    ∃ run b, RunBefore d.definitions run (.object b) ∧ b.name = type ∧
      (d.context m).objectOf run b = o ∧ d.bodies type = b :: d.extensions.filter fun e => e.name = type := by
  have entries : (d.base m).objects.entries =
      (d.runsOf TypeDefinition.object?).map fun p => (p.2.name, (d.context m).objectOf p.1 p.2) :=
    Slot.objects.base_entries m hn
  have single := (d.base m).objects.filter_entries type
  rw [entries, List.filter_map, h, Option.map_some, Option.toList_some, List.map_eq_singleton_iff] at single
  obtain ⟨⟨run, b⟩, hf, hb⟩ := single
  have hm : (run, b) ∈ d.runsOf TypeDefinition.object? := List.mem_of_mem_filter (hf ▸ List.mem_singleton_self _)
  refine ⟨run, b, Slot.objects.mem_runsOf.1 hm, congrArg Prod.fst hb, congrArg Prod.snd hb, ?_⟩
  rw [Document.bodies, ← Document.runsOf_items, List.filter_append, List.filter_map]
  exact congrArg (fun ps => ps.map Prod.snd ++ _) hf

theorem registry_object (hv : d.Valid m) {type : String} {o : ObjectType}
    (h : (d.registry m).objects.get? type = some o) :
    ∃ run b, RunBefore d.definitions run (.object b) ∧ b.name = type ∧ o.name = type ∧
      o.description = describe run ∧
      o.interfaces = NamedRef.interfaces ((d.bodies type).flatMap fun b => b.interfaces) ∧
      o.fields.entries = (d.bodies type).flatMap fun b =>
        ((d.context m).objectFieldsOf type b.fields).entries := by
  obtain ⟨old, hold, ho⟩ := OrderedMap.mapValues_get?.1 h
  obtain ⟨run, b, hm, hn, rfl, hb⟩ := object_bodies hv.names hold
  have extensions : (d.extensions.map (d.context m).extensionOf).filter (fun e => e.typeName = type) =
      (d.extensions.filter fun e => e.name = type).map (d.context m).extensionOf := List.filter_map ..
  have names : (((d.context m).objectOf run b).fields.keys ++
      ((d.extensions.filter fun e => e.name = type).map (d.context m).extensionOf).flatMap
        fun e => e.fields.keys).Nodup := by
    have all := hv.fields type
    rw [← fieldNames_eq (m := m) hv.names fun _ => hv.distinct, Registry.fieldNames, hold,
      extensions] at all
    exact all
  rw [extensions] at ho
  subst ho
  refine ⟨run, b, hm, hn, ?_, ?_, ?_, ?_⟩
  · rw [ObjectType.foldl_merge_name]
    exact hn
  · rw [ObjectType.foldl_merge_description]
    rfl
  · rw [hb, List.flatMap_cons]
    exact ObjectType.foldl_merge_interfaces rfl fun _ _ => rfl
  · rw [ObjectType.foldl_merge_fields names, hb, List.flatMap_cons, List.flatMap_map]
    refine congrArg₂ _ (hn ▸ rfl) (List.flatMap_congr fun e he => ?_)
    rw [← of_decide_eq_true (List.mem_filter.1 he).2]
    rfl

structure Slot.Faithful (s : Slot α β) (r : Registry) (d : Document) : Prop where
  of_get : ∀ {name b}, (s.get r).get? name = some b → (s.type b).name = name ∧ d.Defines name s.kind
  exists_get : ∀ {name}, d.Defines name s.kind → ∃ b, (s.get r).get? name = some b

theorem Slot.base_faithful (s : Slot α β) (hn : d.declaredNames.Nodup) : s.Faithful (d.base m) d where
  of_get h := by
    obtain ⟨run, a, ha, hn', rfl⟩ := (s.base_get? hn).1 h
    exact ⟨(s.type_name _ run a).trans hn', (s.mem_base_keys hn).1 (OrderedMap.mem_keys_iff.2 ⟨_, h⟩)⟩
  exists_get h := OrderedMap.mem_keys_iff.1 ((s.mem_base_keys hn).2 h)

theorem objects_faithful (hn : d.declaredNames.Nodup) : Slot.objects.Faithful (d.registry m) d where
  of_get h := by
    obtain ⟨old, hold, ho⟩ := OrderedMap.mapValues_get?.1 h
    obtain ⟨ht, hd⟩ := (Slot.objects.base_faithful (m := m) hn).of_get hold
    subst ho
    exact ⟨ObjectType.foldl_merge_name.trans ht, hd⟩
  exists_get h := by
    obtain ⟨old, hold⟩ := (Slot.objects.base_faithful (m := m) hn).exists_get h
    exact ⟨_, OrderedMap.mapValues_get?.2 ⟨old, hold, rfl⟩⟩

theorem Slot.faithful (s : Slot α β) (h : s.get (d.registry m) = s.get (d.base m)) (hn : d.declaredNames.Nodup) :
    s.Faithful (d.registry m) d where
  of_get hb := (s.base_faithful (m := m) hn).of_get (h ▸ hb)
  exists_get hd := h ▸ (s.base_faithful hn).exists_get hd

theorem Slot.Faithful.found {s : Slot α β} {r : Registry} (hs : s.Faithful r d) {name : String} {b : β}
    (hb : (s.get r).get? name = some b) : (s.type b).name = name ∧ d.HasKind name (s.type b).kind :=
  ⟨(hs.of_get hb).1, .inl (s.type_kind b ▸ (hs.of_get hb).2)⟩

theorem Slot.Faithful.absent {s : Slot α β} {r : Registry} (hs : s.Faithful r d) {name : String}
    (hb : (s.get r).get? name = none) : ¬d.Defines name s.kind := by
  intro hd
  obtain ⟨b, hd⟩ := hs.exists_get hd
  cases hb.symm.trans hd

theorem builtin_of_ofName? {name : String} {s : BuiltinScalar} (h : BuiltinScalar.ofName? name = some s) :
    s.name = name := by
  simpa using List.find?_some h

theorem lookup_sound (hn : d.declaredNames.Nodup) {name : String} {t : SchemaType}
    (h : (d.registry m).lookup name = some t) : t.name = name ∧ d.HasKind name t.kind := by
  simp only [Registry.lookup, Option.orElse_eq_orElse, Option.orElse_eq_or, Option.or_eq_some_iff,
    Option.map_eq_some_iff] at h
  rcases h with ⟨s, hs, rfl⟩ | ⟨-, ⟨b, hb, rfl⟩ | ⟨-, ⟨b, hb, rfl⟩ | ⟨-, ⟨b, hb, rfl⟩ | ⟨-, ⟨b, hb, rfl⟩ |
    ⟨-, ⟨b, hb, rfl⟩ | ⟨-, b, hb, rfl⟩⟩⟩⟩⟩⟩
  · exact ⟨builtin_of_ofName? hs, .inr ⟨s, builtin_of_ofName? hs, rfl⟩⟩
  · exact (objects_faithful hn).found hb
  · exact (Slot.interfaces.faithful rfl hn).found hb
  · exact (Slot.unions.faithful rfl hn).found hb
  · exact (Slot.scalars.faithful rfl hn).found hb
  · exact (Slot.enums.faithful rfl hn).found hb
  · exact (Slot.inputObjects.faithful rfl hn).found hb

theorem lookup_complete (hn : d.declaredNames.Nodup) {name : String} (h : d.Knows name) :
    ∃ t, (d.registry m).lookup name = some t := by
  rw [← Option.isSome_iff_exists, ← Option.ne_none_iff_isSome]
  intro hl
  simp only [Registry.lookup, Option.orElse_eq_orElse, Option.orElse_eq_or, Option.or_eq_none_iff,
    Option.map_eq_none_iff] at hl
  obtain ⟨hs, ho, hi, hu, hc, he, hf⟩ := hl
  obtain ⟨kind, ⟨t, ht, rfl, hk⟩ | ⟨s, rfl, -⟩⟩ := h
  · cases t with
    | object o => exact (objects_faithful hn).absent ho ⟨_, ht, rfl, rfl⟩
    | interface i => exact (Slot.interfaces.faithful rfl hn).absent hi ⟨_, ht, rfl, rfl⟩
    | union u => exact (Slot.unions.faithful rfl hn).absent hu ⟨_, ht, rfl, rfl⟩
    | scalar c => exact (Slot.scalars.faithful rfl hn).absent hc ⟨_, ht, rfl, rfl⟩
    | enum e => exact (Slot.enums.faithful rfl hn).absent he ⟨_, ht, rfl, rfl⟩
    | inputObject i => exact (Slot.inputObjects.faithful rfl hn).absent hf ⟨_, ht, rfl, rfl⟩
    | extension o => cases hk
  · cases hs.symm.trans s.ofName?_name

theorem lookup_of_hasKind (hv : d.Valid m) {name : String} {kind : Kind} (h : d.HasKind name kind) :
    ∃ t, (d.registry m).lookup name = some t ∧ t.name = name ∧ t.kind = kind := by
  obtain ⟨t, ht⟩ := lookup_complete hv.names ⟨kind, h⟩
  obtain ⟨hn, hk⟩ := lookup_sound hv.names ht
  have hs := hv.agrees
  refine ⟨t, ht, hn, Option.some.inj ?_⟩
  rw [← (hs name t.kind).2 hk, ← (hs name kind).2 h]

end Schemata
