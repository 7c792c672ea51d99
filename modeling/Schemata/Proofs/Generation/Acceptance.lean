import Schemata.Proofs.Generation.Assembly
import Schemata.Proofs.Generation.Deciding
import Schemata.Proofs.Generation.Merging

namespace Schemata

variable {m : Implementations} {d : Document}

theorem fieldNames_eq (hn : d.declaredNames.Nodup) (hd : ∀ t ∈ d.typeDefinitions, t.Distinct) (type : String) :
    (d.base m).fieldNames (d.extensions.map (d.context m).extensionOf) type =
      (d.objectFields type).map FieldDefinition.name := by
  have entries : (d.base m).objects.entries = _ := Slot.objects.base_entries m hn
  have defined : ∀ p ∈ d.runsOf TypeDefinition.object?, ((d.context m).objectOf p.1 p.2).fields.keys =
      (items p.2.fields).map FieldDefinition.name := by
    rintro ⟨run, o⟩ hp
    exact collected_keys (hd _ (Slot.objects.mem_runsOf.1 hp).mem_items)
  have extended : ∀ o ∈ d.extensions, ((d.context m).extensionOf o).fields.keys =
      (items o.fields).map FieldDefinition.name := by
    intro o ho
    exact collected_keys (hd _ (mem_extensions.1 ho))
  rw [Registry.fieldNames, OrderedMap.get?_flatMap, entries, List.filter_map, List.flatMap_map,
    List.filter_map, List.flatMap_map, Document.objectFields, Document.bodies, List.filter_append, List.flatMap_append, List.map_append,
    List.map_flatMap, List.map_flatMap, ← Document.runsOf_items, List.filter_map, List.flatMap_map]
  refine congrArg₂ _ (List.flatMap_congr ?_) (List.flatMap_congr ?_)
  · intro p hp
    exact defined p (List.mem_of_mem_filter hp)
  · intro o ho
    exact extended o (List.mem_of_mem_filter ho)

theorem Document.Valid.distinct (hv : d.Valid m) {t : TypeDefinition} (ht : t ∈ d.typeDefinitions) :
    t.Distinct := by
  cases t with
  | object o => exact hv.body_names (mem_objectDefinitions.2 (.inl ht))
  | extension o => exact hv.body_names (mem_objectDefinitions.2 (.inr ht))
  | _ => trivial

theorem Document.valid_iff :
    d.Valid m ↔ (Scope.builtin.kinds.keys ++ d.declaredNames).Nodup ∧
      (∀ t ∈ d.typeDefinitions, t.Distinct ∧ t.Valid m d) ∧
      ∀ type, ((d.objectFields type).map FieldDefinition.name).Nodup := by
  rw [declared_nodup_iff]
  constructor
  · intro hv
    exact ⟨⟨hv.names, hv.reserved⟩, fun t h => ⟨hv.distinct h, hv.definitions t h⟩, hv.fields⟩
  · rintro ⟨⟨hn, hr⟩, ht, hf⟩
    exact ⟨hn, hr, fun t h => (ht t h).2, hf⟩

theorem generate_decides (m : Implementations) (d : Document) :
    (generate m d).Decides (d.Valid m) (d.registry m) (GenerateError.Holds m d) := by
  have declared : (Scope.ofDocument d).Decides _ _ (GenerateError.Holds m d) :=
    ofDocument_decides fun _ h => duplicate_declared h
  rw [Document.valid_iff]
  refine declared.bind fun hn => ?_
  have names : d.declaredNames.Nodup := (declared_nodup_iff.1 hn).1
  have hs : (d.context m).scope.Agrees d := scope_agrees hn
  refine (Context.contributions_decides hs).bind fun hv => ?_
  have distinct : ∀ t ∈ d.typeDefinitions, t.Distinct := fun t ht => (hv t ht).1
  have merged : ((d.extensions.map (d.context m).extensionOf).foldlM Registry.extend (d.base m)).Decides
      (∀ type, ((d.base m).fieldNames (d.extensions.map (d.context m).extensionOf) type).Nodup) (d.registry m)
      (GenerateError.Holds m d) := by
    refine Registry.foldlM_extend_decides ?_ ?_
    · intro e he
      obtain ⟨o, ho, rfl⟩ := List.mem_map.1 he
      exact (Slot.objects.mem_base_keys names).2 (hv _ (mem_extensions.1 ho)).2.1
    · intro type name h
      rw [fieldNames_eq names distinct] at h
      exact Or.inl h
  simp only [fieldNames_eq names distinct] at merged
  rwa [← contributions_extensions] at merged

/-- Generation succeeds exactly on valid documents, and otherwise its error is true of the document. -/
theorem generate_accepts_valid (m : Implementations) (d : Document) :
    ((∃ r, generate m d = .ok r) ↔ d.Valid m) ∧ ∀ e, generate m d = .error e → e.Holds m d :=
  ⟨(generate_decides m d).exists_ok_iff, fun _ => (generate_decides m d).fault_of_eq_error⟩

end Schemata
