import Schemata.Proofs.Describe.Shape

namespace Schemata

open Describe (comments members)

variable {m : Implementations} {d d' : Document} {r : Registry}

theorem count_declarations (d : Document) (name : String) (k : Kind) :
    d.declarations.count (name, k) = (d.namesOf k).count name := by
  rw [Document.declarations, Document.namesOf]
  induction d.typeDefinitions with
  | nil => rfl
  | cons t ts ih =>
    rw [List.filterMap_cons, List.filter_cons]
    cases hk : t.kind? with
    | none => simpa using ih
    | some k' =>
      by_cases h : k' = k
      · simp [h, List.count_cons, ih]
      · simp [h, ih]

theorem declarations_perm (h : ∀ k, d.namesOf k = d'.namesOf k) : d.declarations.Perm d'.declarations := by
  rw [List.perm_iff_count]
  rintro ⟨name, k⟩
  rw [count_declarations, count_declarations, h]

section

variable (hv : d.Valid m)
include hv

theorem document_declarations : (d.registry m).document.declarations.Perm d.declarations :=
  declarations_perm fun k => (document_names (registry_keyed hv) k).trans (registry_names hv.names k)

theorem document_sameKinds : d.SameKinds (d.registry m).document :=
  .of_declarations fun _ => (document_declarations hv).mem_iff.symm

end

theorem InputValue.Grounded.transfer (h : d.SameKinds d') {v : InputValue} (hg : v.Grounded d) : v.Grounded d' :=
  ⟨(h.hasKind_iff _ _).1 hg.1, hg.2⟩

theorem Field.Grounded.transfer (h : d.SameKinds d') {f : Field} (hg : f.Grounded d) : f.Grounded d' :=
  ⟨(h.hasKind_iff _ _).1 hg.1, fun v hv => (hg.2 v hv).transfer h⟩

theorem Document.Grounds.defines {ref : NamedRef} (hg : d.Grounds ref) (hb : ref.kind.isBuiltin = false) :
    d.Defines ref.name ref.kind :=
  (d.hasKind_iff_defines hb).1 hg

theorem Document.Grounds.knows {a : Annotation} (hg : d.Grounds a.innermost) : d.Knows a.written.innermostName :=
  ⟨a.innermost.kind, a.innermostName_written ▸ hg⟩

theorem Field.definition_inputs (f : Field) : f.definition.inputs = f.inputs.map InputValue.definition := by
  rw [FieldDefinition.inputs, Field.definition, Field.inputs]
  cases f.arguments with
  | none => rfl
  | some arguments => simp [items_members]

section

variable (hv : d.Valid m)
include hv

theorem InputValue.Grounded.valid {v : InputValue} (hg : v.Grounded d) : v.definition.Valid d := by
  refine ⟨hg.1.knows, fun ho => hg.2 ?_⟩
  have object : d.HasKind v.type.innermost.name .object := .inl (v.type.innermostName_written ▸ ho)
  exact hv.kind_unique hg.1 object

theorem Field.Grounded.valid {f : Field} (hg : f.Grounded d)
    (hk : ∀ arguments, f.arguments = some arguments → arguments.KeyedBy InputValue.name) :
    f.definition.Valid d := by
  have names : (f.inputs.map InputValue.name).Nodup := by
    rw [Field.inputs]
    cases ha : f.arguments with
    | none => exact List.nodup_nil
    | some arguments =>
      rw [Option.map_some, Option.getD_some, (hk arguments ha).values_names]
      exact arguments.keys_nodup
  refine ⟨hg.1.knows, ?_, ?_⟩
  · rw [f.definition_inputs, List.map_map]
    exact names
  · rw [f.definition_inputs, List.forall_mem_map]
    exact fun v hm => (hg.2 v hm).valid hv

end

theorem forall_document_typeDefinitions {p : TypeDefinition → Prop} : (∀ t ∈ r.document.typeDefinitions, p t) ↔
    (∀ t ∈ r.objects.values, p (.object t.definition)) ∧ (∀ t ∈ r.interfaces.values, p (.interface t.definition)) ∧
      (∀ t ∈ r.unions.values, p (.union t.definition)) ∧ (∀ t ∈ r.scalars.values, p (.scalar t.definition)) ∧
        (∀ t ∈ r.enums.values, p (.enum t.definition)) ∧ ∀ t ∈ r.inputObjects.values, p (.inputObject t.definition) := by
  simp only [document_typeDefinitions, Registry.runs, List.map_append, List.map_map, List.forall_mem_append,
    List.forall_mem_map, and_assoc, Function.comp_apply]

theorem document_bodies (hk : r.Keyed) (type : String) :
    r.document.bodies type = ((r.objects.get? type).map ObjectType.definition).toList := by
  have objects : r.document.typeDefinitions.filterMap TypeDefinition.object? =
      r.objects.entries.map fun e => e.2.definition := by
    have runs := (describes_objects hk).runs
    rw [← Document.runsOf_items]
    change (r.document.runsOf Slot.objects.select).map Prod.snd = _
    rw [runs, OrderedMap.values, List.map_map, List.map_map]
    rfl
  have named : (r.objects.entries.filter fun e => e.2.definition.name = type) =
      r.objects.entries.filter fun e => e.1 = type := by
    apply List.filter_congr
    intro e he
    rw [hk.objects.entry he]
    rfl
  have all : r.document.bodies type = (r.objects.entries.filter fun e => e.2.definition.name = type).map
      fun e => e.2.definition := by
    rw [Document.bodies, document_extensions, List.append_nil, objects, List.filter_map]
    rfl
  rw [all, named, OrderedMap.filter_entries]
  cases r.objects.get? type <;> rfl

section

variable (hv : d.Valid m) (h : d.SameKinds d')
include hv h

theorem fields_valid {f : Field} (hf : f ∈ (d.registry m).fields) : f.definition.Valid d' :=
  ((field_grounded hv hf).valid hv ((registry_keyed hv).arguments f hf)).transfer h

theorem object_valid {n : Implementations} {t : ObjectType} (ht : t ∈ (d.registry m).objects.values)
    (hr : ∀ f ∈ t.fields.values, f.definition.isCalculated →
      (n.fieldResolver? t.definition.name f.definition.name).isSome) :
    t.definition.Valid n d' := by
  have fields : items t.definition.fields = t.fields.values.map Field.definition := items_members
  refine ObjectDefinition.valid_iff.2 ⟨?_, ?_⟩
  · rw [ObjectType.definition, List.forall_mem_map]
    intro ref hm
    obtain ⟨grounded, kind⟩ := interfaceRef_grounded hv (List.mem_flatMap.2 ⟨t, ht, hm⟩)
    exact (h ref.name .interface).1 (kind ▸ grounded.defines (kind ▸ rfl))
  · rw [fields, List.forall_mem_map]
    intro f hf
    exact ⟨fields_valid hv h (Registry.mem_fields_of_object ht hf), hr f hf⟩

theorem interface_valid {t : InterfaceType} (ht : t ∈ (d.registry m).interfaces.values) : t.definition.Valid d' := by
  have fields : items t.definition.fields = t.fields.values.map Field.definition := items_members
  refine ⟨?_, ?_⟩
  · have names : (items t.definition.fields).map FieldDefinition.name = t.fields.keys :=
      members_names ((registry_keyed hv).interfaceFields t ht) fun _ => rfl
    exact names ▸ t.fields.keys_nodup
  · rw [fields, List.forall_mem_map]
    intro f hf
    exact fields_valid hv h (Registry.mem_fields_of_interface ht hf)

theorem union_valid {t : UnionType} (ht : t ∈ (d.registry m).unions.values) : t.definition.Valid d' := by
  refine ⟨t.members.keys_nodup, ?_⟩
  rw [UnionType.definition, ← ((registry_keyed hv).members t ht).values_names, List.forall_mem_map]
  intro ref hm
  obtain ⟨grounded, kind⟩ := memberRef_grounded hv (List.mem_flatMap.2 ⟨t, ht, hm⟩)
  exact (h ref.name .object).1 (kind ▸ grounded.defines (kind ▸ rfl))

theorem inputObject_valid {t : InputObjectType} (ht : t ∈ (d.registry m).inputObjects.values) :
    t.definition.Valid d' := by
  have fields : items t.definition.fields = t.fields.values.map InputValue.definition := items_members
  refine ⟨?_, ?_⟩
  · have names : (items t.definition.fields).map InputValueDefinition.name = t.fields.keys :=
      members_names ((registry_keyed hv).inputFields t ht) fun _ => rfl
    exact names ▸ t.fields.keys_nodup
  · rw [fields, List.forall_mem_map]
    intro v hm
    exact ((input_grounded hv (Registry.mem_inputs_of_inputObject ht hm)).valid hv).transfer h

end

theorem enum_valid {t : EnumType} (hk : t.values.KeyedBy EnumValue.name) {n : Implementations}
    (hn : n.enumValues? t.name = none) : t.definition.Valid n := by
  refine ⟨?_, ?_⟩
  · have names : (items t.definition.values).map id = t.values.keys := members_names hk fun _ => rfl
    rw [List.map_id] at names
    exact names ▸ t.values.keys_nodup
  · intro values hs
    cases hn.symm.trans hs

theorem document_fields (hk : r.Keyed) (type : String) :
    ((r.document.objectFields type).map FieldDefinition.name).Nodup := by
  rw [Document.objectFields, document_bodies hk]
  cases ho : r.objects.get? type with
  | none => exact List.nodup_nil
  | some t =>
    have keyed := hk.objectFields t (OrderedMap.mem_values_iff.2 ⟨type, ho⟩)
    have names : (items t.definition.fields).map FieldDefinition.name = t.fields.keys :=
      members_names keyed fun _ => rfl
    have distinct : ((items t.definition.fields).map FieldDefinition.name).Nodup := names ▸ t.fields.keys_nodup
    simpa using distinct

theorem placeholder_isSome {o : ObjectDefinition} (ho : o ∈ d.objectDefinitions) {f : FieldDefinition}
    (hf : f ∈ items o.fields) (hc : f.isCalculated) :
    ((Implementations.empty.withPlaceholders d).fieldResolver? o.name f.name).isSome := by
  have calculated : (o.name, f.name) ∈ d.calculatedFields := mem_calculatedFields.2 ⟨f, mem_objectFields ho hf, hc, rfl⟩
  rw [Implementations.withPlaceholders_fieldResolver?, if_pos calculated, Option.or_some]
  rfl

theorem document_valid (hv : d.Valid m) :
    (d.registry m).document.Valid (Implementations.empty.withPlaceholders (d.registry m).document) := by
  have keyed := registry_keyed hv
  have same := document_sameKinds hv
  have names : (d.registry m).document.declaredNames.Perm d.declaredNames := (document_declarations hv).map Prod.fst
  refine ⟨names.nodup_iff.2 hv.names, fun s hs => hv.reserved s (names.mem_iff.1 hs), ?_, document_fields keyed⟩
  rw [forall_document_typeDefinitions]
  refine ⟨fun t ht => object_valid hv same ht ?_, fun t ht => interface_valid hv same ht,
    fun t ht => union_valid hv same ht, fun _ _ => trivial, fun t ht => enum_valid (keyed.enumValues t ht) ?_,
    fun t ht => inputObject_valid hv same ht⟩
  · intro f hf hc
    have defined : TypeDefinition.object t.definition ∈ (d.registry m).document.typeDefinitions :=
      (forall_document_typeDefinitions.1 fun _ h => h).1 t ht
    have written : f.definition ∈ items t.definition.fields := by
      rw [ObjectType.definition, items_members]
      exact List.mem_map_of_mem hf
    exact placeholder_isSome (mem_objectDefinitions.2 (.inl defined)) written hc
  · rw [Implementations.withPlaceholders_enumValues?]
    rfl

end Schemata
