import Schemata.Proofs.Describe.Text
import Schemata.Proofs.Describe.Validity

namespace Schemata

open Describe (comments members)

variable {m : Implementations} {d : Document} {c : Context}

theorem Document.HasField.mem_fields {type : String} {f : FieldDefinition} (h : d.HasField type f) :
    f ∈ d.typeDefinitions.flatMap TypeDefinition.fields := by
  rw [List.mem_flatMap]
  rcases h with h | ⟨i, hi, -, hf⟩
  · obtain ⟨o, ho, hf⟩ := List.mem_flatMap.1 h
    rcases mem_objectDefinitions.1 (mem_bodies.1 ho).1 with hd | hd
    · exact ⟨_, hd, hf⟩
    · exact ⟨_, hd, hf⟩
  · exact ⟨_, hi, hf⟩

theorem TypeDefinition.inputs_subset {t : TypeDefinition} {f : FieldDefinition} (hf : f ∈ t.fields)
    {v : InputValueDefinition} (hv : v ∈ f.inputs) : v ∈ t.inputValues := by
  have written : v ∈ t.fields.flatMap FieldDefinition.inputValues := List.mem_flatMap.2 ⟨f, hf, hv⟩
  cases t with
  | inputObject i => cases hf
  | _ => exact written

theorem Document.HasInput.mem_inputValues {v : InputValueDefinition} (h : d.HasInput v) : v ∈ d.inputValues := by
  rw [Document.inputValues, List.mem_flatMap]
  rcases h with ⟨type, f, hf, hv⟩ | ⟨i, hi, hv⟩
  · obtain ⟨t, ht, hf⟩ := List.mem_flatMap.1 hf.mem_fields
    exact ⟨t, ht, TypeDefinition.inputs_subset hf hv⟩
  · exact ⟨_, hi, hv⟩

namespace TypeDefinition.WellFormed

variable {t : TypeDefinition} (h : t.WellFormed)
include h

theorem name : IsName t.name := by
  cases t with
  | scalar s => exact h
  | _ => exact h.name

theorem fields : ∀ f ∈ t.fields, f.WellFormed := by
  cases t with
  | object o | extension o => exact items_wellFormed h.fields
  | interface i => exact items_wellFormed h.fields
  | _ => exact nofun

theorem inputValues : ∀ v ∈ t.inputValues, v.WellFormed := by
  have arguments : ∀ v ∈ t.fields.flatMap FieldDefinition.inputValues, v.WellFormed := by
    rw [List.forall_mem_flatMap]
    intro f hf
    rw [FieldDefinition.inputValues]
    cases ha : f.arguments with
    | none => exact nofun
    | some members => exact items_wellFormed ((h.fields f hf).arguments members ha)
  cases t with
  | inputObject i => exact items_wellFormed (InputObjectDefinition.WellFormed.fields h)
  | _ => exact arguments

end TypeDefinition.WellFormed

namespace Document.WellFormed

variable (hw : d.WellFormed)
include hw

theorem typeDefinition : ∀ t ∈ d.typeDefinitions, t.WellFormed := items_wellFormed hw

theorem field {type : String} {f : FieldDefinition} (h : d.HasField type f) : f.WellFormed := by
  obtain ⟨t, ht, hf⟩ := List.mem_flatMap.1 h.mem_fields
  exact (hw.typeDefinition t ht).fields f hf

theorem input {v : InputValueDefinition} (h : d.HasInput v) : v.WellFormed := by
  obtain ⟨t, ht, hv⟩ := List.mem_flatMap.1 h.mem_inputValues
  exact (hw.typeDefinition t ht).inputValues v hv

theorem name {name : String} {k : Kind} (h : d.Defines name k) : IsName name := by
  obtain ⟨t, ht, rfl, -⟩ := h
  exact (hw.typeDefinition t ht).name

end Document.WellFormed

theorem written_annotationOf (t : TypeRef) : (c.annotationOf t).written = t := by
  induction t with
  | named name => rfl
  | list inner ih => rw [Context.annotationOf, Annotation.written, ih]
  | nonNull inner ih => rw [Context.annotationOf, Annotation.written, ih]

theorem inputValuesOf_origin {members : List (Member InputValueDefinition)}
    (hn : ((items members).map InputValueDefinition.name).Nodup) {v : InputValue}
    (h : v ∈ (c.inputValuesOf members).values) : ∃ run, ∃ a ∈ items members, c.inputValueOf run a = v := by
  obtain ⟨key, hk⟩ := OrderedMap.mem_values_iff.1 h
  obtain ⟨run, a, ha, -, he⟩ := (collected_get? hn).1 hk
  exact ⟨run, a, ha.mem_items, he⟩

theorem fieldOf_inputs {f : FieldDefinition} (hf : f.Valid d) {resolver : FieldDefinition → Option BoundFieldResolver}
    {run : List Comment} {v : InputValue} (h : v ∈ (c.fieldOf resolver run f).inputs) :
    ∃ run, ∃ a ∈ f.inputs, c.inputValueOf run a = v := by
  have names := hf.names
  rw [FieldDefinition.inputs] at names ⊢
  rw [Field.inputs, Context.fieldOf] at h
  cases ha : f.arguments with
  | none => simp [ha] at h
  | some members =>
    rw [ha, Option.getD_some] at names
    simp only [ha, Option.map_some, Option.getD_some] at h
    exact inputValuesOf_origin names h

theorem input_origin (hv : d.Valid m) {v : InputValue} (h : v ∈ (d.registry m).inputs) :
    ∃ run a, d.HasInput a ∧ (d.context m).inputValueOf run a = v := by
  rcases List.mem_append.1 h with h | h
  · obtain ⟨f, hf, h⟩ := List.mem_flatMap.1 h
    obtain ⟨type, resolver, run, a, ha, valid, rfl⟩ := field_origin hv hf
    obtain ⟨run, b, hb, he⟩ := fieldOf_inputs valid h
    exact ⟨run, b, .inl ⟨type, a, ha, hb⟩, he⟩
  · obtain ⟨i, hi, h⟩ := List.mem_flatMap.1 h
    obtain ⟨type, ht⟩ := OrderedMap.mem_values_iff.1 hi
    obtain ⟨run, b, hr, -, rfl⟩ := (Slot.inputObjects.base_get? hv.names).1 ht
    have valid : b.Valid d := hv.definitions _ hr.mem_items
    obtain ⟨run, a, ha, he⟩ := inputValuesOf_origin valid.names h
    exact ⟨run, a, .inr ⟨b, hr.mem_items, ha⟩, he⟩

def Registry.PlainDefaults (r : Registry) : Prop := ∀ v ∈ r.inputs, ∀ j ∈ v.defaultValue, j.Plain

section

variable (hv : d.Valid m) (hw : d.WellFormed) (hp : (d.registry m).PlainDefaults)
include hv hw

theorem isName_of_mem_names {k : Kind} {name : String} (h : name ∈ (d.registry m).names k) : IsName name := by
  rw [registry_names hv.names, mem_namesOf] at h
  exact hw.name h

include hp

theorem input_printable {v : InputValue} (h : v ∈ (d.registry m).inputs) : v.Printable := by
  have plain := hp v h
  obtain ⟨run, a, ha, rfl⟩ := input_origin hv h
  have wellFormed := hw.input ha
  refine ⟨wellFormed.name, ?_, fun j hj => ⟨plain j hj, ?_⟩⟩
  · rw [Context.inputValueOf, written_annotationOf]
    exact wellFormed.type
  · obtain ⟨x, -, hx⟩ := Option.map_eq_some_iff.1 hj
    exact ⟨x, hx⟩

theorem field_printable {f : Field} (h : f ∈ (d.registry m).fields) : f.Printable := by
  have inputs : ∀ v ∈ f.inputs, v.Printable := fun v hm =>
    input_printable hv hw hp (Registry.mem_inputs_of_field h hm)
  obtain ⟨type, resolver, run, a, ha, -, rfl⟩ := field_origin hv h
  have wellFormed := hw.field ha
  refine ⟨wellFormed.name, ?_, inputs⟩
  rw [Context.fieldOf, written_annotationOf]
  exact wellFormed.type

omit hp in
theorem union_printable {t : UnionType} (ht : t ∈ (d.registry m).unions.values) : t.Printable := by
  have keyed := registry_keyed hv
  refine ⟨isName_of_mem_names hv hw (k := .union) (keyed.unions.name_mem_keys ht), ?_, ?_⟩
  · obtain ⟨type, hg⟩ := OrderedMap.mem_values_iff.1 ht
    obtain ⟨run, b, hr, -, rfl⟩ := (Slot.unions.base_get? hv.names).1 hg
    have valid : b.Valid d := hv.definitions _ hr.mem_items
    have wellFormed : b.WellFormed := hw.typeDefinition _ hr.mem_items
    have keys : ((d.context m).unionOf run b).members.keys = b.members := members_keys valid.names
    exact keys.symm ▸ wellFormed.nonempty
  · rw [← (keyed.members t ht).values_names, List.forall_mem_map]
    intro ref hm
    obtain ⟨grounded, kind⟩ := memberRef_grounded hv (List.mem_flatMap.2 ⟨t, ht, hm⟩)
    exact hw.name (grounded.defines (kind ▸ rfl))

omit hp in
theorem enum_printable {t : EnumType} (ht : t ∈ (d.registry m).enums.values) : t.Printable := by
  refine ⟨isName_of_mem_names hv hw (k := .enum) ((registry_keyed hv).enums.name_mem_keys ht), fun v hm => ?_⟩
  obtain ⟨type, hg⟩ := OrderedMap.mem_values_iff.1 ht
  obtain ⟨key, hk⟩ := OrderedMap.mem_values_iff.1 hm
  obtain ⟨run, b, hr, -, rfl⟩ := (Slot.enums.base_get? hv.names).1 hg
  have valid : b.Valid m := hv.definitions _ hr.mem_items
  have wellFormed : b.WellFormed := hw.typeDefinition _ hr.mem_items
  have names : ((items b.values).map id).Nodup := by
    rw [List.map_id]
    exact valid.names
  obtain ⟨run', name, hn, rfl, rfl⟩ := (collected_get? names).1 hk
  exact items_wellFormed wellFormed.values name hn.mem_items

theorem registry_printable : (d.registry m).Printable := by
  have keyed := registry_keyed hv
  have fields {fs : List Field} (h : fs ⊆ (d.registry m).fields) : ∀ f ∈ fs, f.Printable :=
    fun f hf => field_printable hv hw hp (h hf)
  constructor
  · intro t ht
    refine ⟨isName_of_mem_names hv hw (k := .object) (keyed.objects.name_mem_keys ht), fun ref hr => ?_, fields ?_⟩
    · obtain ⟨grounded, kind⟩ := interfaceRef_grounded hv (List.mem_flatMap.2 ⟨t, ht, hr⟩)
      exact hw.name (grounded.defines (kind ▸ rfl))
    · exact fun f hf => Registry.mem_fields_of_object ht hf
  · intro t ht
    refine ⟨isName_of_mem_names hv hw (k := .interface) (keyed.interfaces.name_mem_keys ht), fields ?_⟩
    exact fun f hf => Registry.mem_fields_of_interface ht hf
  · exact fun t ht => union_printable hv hw ht
  · exact fun t ht => isName_of_mem_names hv hw (k := .scalar) (keyed.scalars.name_mem_keys ht)
  · exact fun t ht => enum_printable hv hw ht
  · intro t ht
    refine ⟨isName_of_mem_names hv hw (k := .inputObject) (keyed.inputObjects.name_mem_keys ht), fun v hm => ?_⟩
    exact input_printable hv hw hp (Registry.mem_inputs_of_inputObject ht hm)

end

theorem document_fieldDefinitions (r : Registry) :
    r.document.typeDefinitions.flatMap TypeDefinition.fields = r.fields.map Field.definition := by
  simp [document_typeDefinitions, Registry.runs, Registry.fields, TypeDefinition.fields, ObjectType.definition,
    InterfaceType.definition, items_members, List.flatMap_map, List.map_flatMap]

theorem document_inputValues (r : Registry) : r.document.inputValues = r.inputs.map InputValue.definition := by
  have arguments : ∀ f : Field, f.definition.inputValues = f.inputs.map InputValue.definition := Field.definition_inputs
  have inputFields : ∀ t : InputObjectType, items t.definition.fields = t.fields.values.map InputValue.definition :=
    fun _ => items_members
  have nothing {τ : Type} (ts : List τ) : ts.flatMap (fun _ => ([] : List InputValueDefinition)) = [] :=
    List.flatMap_eq_nil_iff.2 fun _ _ => rfl
  simp [Document.inputValues, document_typeDefinitions, Registry.runs, Registry.inputs, Registry.fields,
    TypeDefinition.inputValues, TypeDefinition.fields, ObjectType.definition, InterfaceType.definition, items_members,
    List.flatMap_map, List.map_flatMap, List.flatMap_assoc, arguments, inputFields, nothing]

section

variable (hv : d.Valid m)
include hv

theorem document_typeRefs {t : TypeRef} (h : t ∈ (d.registry m).document.typeRefs) : t ∈ d.typeRefs := by
  rw [Document.typeRefs, document_fieldDefinitions, document_inputValues, List.map_map, List.map_map,
    List.mem_append] at h
  rcases h with h | h
  · obtain ⟨f, hf, rfl⟩ := List.mem_map.1 h
    obtain ⟨type, resolver, run, a, ha, -, rfl⟩ := field_origin hv hf
    exact List.mem_append_left _ (List.mem_map.2 ⟨a, ha.mem_fields, (written_annotationOf a.type).symm⟩)
  · obtain ⟨v, hm, rfl⟩ := List.mem_map.1 h
    obtain ⟨run, a, ha, rfl⟩ := input_origin hv hm
    exact List.mem_append_right _ (List.mem_map.2 ⟨a, ha.mem_inputValues, (written_annotationOf a.type).symm⟩)

theorem document_defaultValues (hp : (d.registry m).PlainDefaults) {x : Value}
    (h : x ∈ (d.registry m).document.defaultValues) : ∃ y ∈ d.defaultValues, x.demand = y.demand := by
  rw [Document.defaultValues, document_inputValues, List.filterMap_map, List.mem_filterMap] at h
  obtain ⟨v, hm, hx⟩ := h
  obtain ⟨j, hj, rfl⟩ := Option.map_eq_some_iff.1 hx
  have plain := hp v hm j hj
  obtain ⟨run, a, ha, rfl⟩ := input_origin hv hm
  obtain ⟨y, hy, rfl⟩ := Option.map_eq_some_iff.1 hj
  exact ⟨y, List.mem_filterMap.2 ⟨a, ha.mem_inputValues, hy⟩, y.literal_demand plain⟩

theorem document_demand (hp : (d.registry m).PlainDefaults) {n : Nat} (hn : d.demand ≤ n) :
    (d.registry m).document.demand ≤ n := by
  obtain ⟨types, values⟩ := Document.depth_le_iff.1 hn
  refine Document.depth_le_iff.2 ⟨fun t ht => types t (document_typeRefs hv ht), fun x hx => ?_⟩
  obtain ⟨y, hy, he⟩ := document_defaultValues hv hp hx
  exact he ▸ values y hy

end

end Schemata
