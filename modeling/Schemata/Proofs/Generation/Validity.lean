import Mathlib.Data.List.Duplicate
import Schemata.Generation.Basic
/-!
Valid documents, and errors that are true of a document. Both are said of the document as it is written,
without regard to the order in which it is checked.
-/

namespace Schemata

namespace TypeDefinition

def object? : TypeDefinition → Option ObjectDefinition
  | object definition => some definition
  | _ => none

def interface? : TypeDefinition → Option InterfaceDefinition
  | interface definition => some definition
  | _ => none

def union? : TypeDefinition → Option UnionDefinition
  | union definition => some definition
  | _ => none

def scalar? : TypeDefinition → Option ScalarDefinition
  | scalar definition => some definition
  | _ => none

def enum? : TypeDefinition → Option EnumDefinition
  | enum definition => some definition
  | _ => none

def inputObject? : TypeDefinition → Option InputObjectDefinition
  | inputObject definition => some definition
  | _ => none

def extension? : TypeDefinition → Option ObjectDefinition
  | extension definition => some definition
  | _ => none

end TypeDefinition

namespace Document

def declarations (d : Document) : List (String × Kind) :=
  d.typeDefinitions.filterMap fun t => t.kind?.map fun kind => (t.name, kind)

def declaredNames (d : Document) : List String := d.declarations.map Prod.fst

def Defines (d : Document) (name : String) (kind : Kind) : Prop :=
  ∃ t ∈ d.typeDefinitions, t.name = name ∧ t.kind? = some kind

def HasKind (d : Document) (name : String) (kind : Kind) : Prop :=
  d.Defines name kind ∨ ∃ s : BuiltinScalar, s.name = name ∧ kind = .builtin s

def Knows (d : Document) (name : String) : Prop := ∃ kind, d.HasKind name kind

def extensions (d : Document) : List ObjectDefinition := d.typeDefinitions.filterMap TypeDefinition.extension?

def bodies (d : Document) (type : String) : List ObjectDefinition :=
  (d.typeDefinitions.filterMap TypeDefinition.object? ++ d.extensions).filter fun o => o.name = type

def objectFields (d : Document) (type : String) : List FieldDefinition :=
  (d.bodies type).flatMap fun o => items o.fields

end Document

section

variable {d : Document} {o : ObjectDefinition}

theorem mem_extensions : o ∈ d.extensions ↔ .extension o ∈ d.typeDefinitions := by
  rw [Document.extensions, List.mem_filterMap]
  constructor
  · rintro ⟨t, ht, h⟩
    cases t with
    | extension o' => exact Option.some.inj h ▸ ht
    | _ => cases h
  · exact fun h => ⟨_, h, rfl⟩

theorem mem_objectDefinitions :
    o ∈ d.objectDefinitions ↔ .object o ∈ d.typeDefinitions ∨ .extension o ∈ d.typeDefinitions := by
  rw [Document.objectDefinitions, List.mem_filterMap]
  constructor
  · rintro ⟨t, ht, h⟩
    cases t with
    | object o' => exact .inl (Option.some.inj h ▸ ht)
    | extension o' => exact .inr (Option.some.inj h ▸ ht)
    | _ => cases h
  · rintro (h | h)
    · exact ⟨_, h, rfl⟩
    · exact ⟨_, h, rfl⟩

theorem mem_bodies {type : String} : o ∈ d.bodies type ↔ o ∈ d.objectDefinitions ∧ o.name = type := by
  rw [Document.bodies, List.mem_filter, List.mem_append, mem_extensions, List.mem_filterMap,
    mem_objectDefinitions, decide_eq_true_eq]
  apply and_congr_left'
  apply or_congr_left
  constructor
  · rintro ⟨t, ht, h⟩
    cases t with
    | object o' => exact Option.some.inj h ▸ ht
    | _ => cases h
  · exact fun h => ⟨_, h, rfl⟩

theorem mem_objectFields {f : FieldDefinition} (ho : o ∈ d.objectDefinitions) (hf : f ∈ items o.fields) :
    f ∈ d.objectFields o.name :=
  List.mem_flatMap.2 ⟨o, mem_bodies.2 ⟨ho, rfl⟩, hf⟩

theorem items_sublist_objectFields (ho : o ∈ d.objectDefinitions) :
    (items o.fields).Sublist (d.objectFields o.name) := by
  rw [Document.objectFields, List.flatMap]
  exact List.sublist_flatten_of_mem (List.mem_map_of_mem (mem_bodies.2 ⟨ho, rfl⟩))

end

def InputValueDefinition.Valid (d : Document) (v : InputValueDefinition) : Prop :=
  d.Knows v.type.innermostName ∧ ¬d.Defines v.type.innermostName .object

def FieldDefinition.inputs (f : FieldDefinition) : List InputValueDefinition := items (f.arguments.getD [])

structure FieldDefinition.Valid (d : Document) (f : FieldDefinition) : Prop where
  type : d.Knows f.type.innermostName
  names : (f.inputs.map InputValueDefinition.name).Nodup
  inputs : ∀ v ∈ f.inputs, v.Valid d

structure ObjectDefinition.Valid (m : Implementations) (d : Document) (o : ObjectDefinition) : Prop where
  interfaces : ∀ name ∈ o.interfaces, d.Defines name .interface
  fields : ∀ f ∈ items o.fields, f.Valid d
  resolvers : ∀ f ∈ items o.fields, f.isCalculated → (m.fieldResolver? o.name f.name).isSome

structure InterfaceDefinition.Valid (d : Document) (i : InterfaceDefinition) : Prop where
  names : ((items i.fields).map FieldDefinition.name).Nodup
  fields : ∀ f ∈ items i.fields, f.Valid d

structure UnionDefinition.Valid (d : Document) (u : UnionDefinition) : Prop where
  names : u.members.Nodup
  members : ∀ name ∈ u.members, d.Defines name .object

structure EnumDefinition.Valid (m : Implementations) (e : EnumDefinition) : Prop where
  names : (items e.values).Nodup
  values : ∀ values, m.enumValues? e.name = some values → ∀ name ∈ items e.values, values.contains name

structure InputObjectDefinition.Valid (d : Document) (i : InputObjectDefinition) : Prop where
  names : ((items i.fields).map InputValueDefinition.name).Nodup
  fields : ∀ v ∈ items i.fields, v.Valid d

def TypeDefinition.Valid (m : Implementations) (d : Document) : TypeDefinition → Prop
  | object o => o.Valid m d
  | interface i => i.Valid d
  | union u => u.Valid d
  | scalar _ => True
  | enum e => e.Valid m
  | inputObject i => i.Valid d
  | extension o => d.Defines o.name .object ∧ o.Valid m d

/-- A document of which a registry can be made. -/
structure Document.Valid (m : Implementations) (d : Document) : Prop where
  names : d.declaredNames.Nodup
  reserved : ∀ s : BuiltinScalar, s.name ∉ d.declaredNames
  definitions : ∀ t ∈ d.typeDefinitions, t.Valid m d
  fields : ∀ type, ((d.objectFields type).map FieldDefinition.name).Nodup

section

variable {m : Implementations} {d : Document} {o : ObjectDefinition}

theorem ObjectDefinition.valid_iff :
    o.Valid m d ↔ (∀ name ∈ o.interfaces, d.Defines name .interface) ∧ ∀ f ∈ items o.fields, f.Valid d ∧
      (f.isCalculated → (m.fieldResolver? o.name f.name).isSome) :=
  ⟨fun ⟨hi, hf, hr⟩ => ⟨hi, fun f h => ⟨hf f h, hr f h⟩⟩,
    fun ⟨hi, hf⟩ => ⟨hi, fun f h => (hf f h).1, fun f h => (hf f h).2⟩⟩

theorem Document.Valid.body (hv : d.Valid m) (ho : o ∈ d.objectDefinitions) : o.Valid m d := by
  rcases mem_objectDefinitions.1 ho with h | h
  · exact hv.definitions _ h
  · exact (hv.definitions _ h).2

theorem Document.Valid.body_defines (hv : d.Valid m) (ho : o ∈ d.objectDefinitions) : d.Defines o.name .object := by
  rcases mem_objectDefinitions.1 ho with h | h
  · exact ⟨_, h, rfl, rfl⟩
  · exact (hv.definitions _ h).1

theorem Document.Valid.body_names (hv : d.Valid m) (ho : o ∈ d.objectDefinitions) :
    ((items o.fields).map FieldDefinition.name).Nodup :=
  (hv.fields o.name).sublist ((items_sublist_objectFields ho).map _)

end

namespace Document

def HasField (d : Document) (type : String) (f : FieldDefinition) : Prop :=
  f ∈ d.objectFields type ∨ ∃ i, .interface i ∈ d.typeDefinitions ∧ i.name = type ∧ f ∈ items i.fields

def HasInput (d : Document) (v : InputValueDefinition) : Prop :=
  (∃ type f, d.HasField type f ∧ v ∈ f.inputs) ∨ ∃ i, .inputObject i ∈ d.typeDefinitions ∧ v ∈ items i.fields

def HasMember (d : Document) (union name : String) : Prop :=
  ∃ u, .union u ∈ d.typeDefinitions ∧ u.name = union ∧ name ∈ u.members

end Document

def GenerateError.Holds (m : Implementations) (d : Document) : GenerateError → Prop
  | parse _ | noQueryType => False
  | duplicateType type =>
    List.Duplicate type d.declaredNames ∨ type ∈ d.declaredNames ∧ ∃ s : BuiltinScalar, s.name = type
  | duplicateField type field =>
    List.Duplicate field ((d.objectFields type).map FieldDefinition.name) ∨
    (∃ i, .interface i ∈ d.typeDefinitions ∧ i.name = type ∧
      List.Duplicate field ((items i.fields).map FieldDefinition.name)) ∨
    ∃ i, .inputObject i ∈ d.typeDefinitions ∧ i.name = type ∧
      List.Duplicate field ((items i.fields).map InputValueDefinition.name)
  | duplicateArgument type field argument =>
    ∃ f, d.HasField type f ∧ f.name = field ∧
      List.Duplicate argument (f.inputs.map InputValueDefinition.name)
  | duplicateEnumValue enum value =>
    ∃ e, .enum e ∈ d.typeDefinitions ∧ e.name = enum ∧ List.Duplicate value (items e.values)
  | duplicateUnionMember union member =>
    ∃ u, .union u ∈ d.typeDefinitions ∧ u.name = union ∧ List.Duplicate member u.members
  | extensionOfUndefinedType type =>
    (∃ o, .extension o ∈ d.typeDefinitions ∧ o.name = type) ∧ ¬d.Knows type
  | incompleteEnumImplementation enum value =>
    (∃ e, .enum e ∈ d.typeDefinitions ∧ e.name = enum ∧ value ∈ items e.values) ∧
      ∃ values, m.enumValues? enum = some values ∧ value ∉ values.keys
  | invalidExtensionType type kind =>
    (∃ o, .extension o ∈ d.typeDefinitions ∧ o.name = type) ∧ d.HasKind type kind ∧ kind ≠ .object
  | invalidUnionMember union member kind => d.HasMember union member ∧ d.HasKind member kind ∧ kind ≠ .object
  | missingFieldImplementation type field =>
    (∃ f ∈ d.objectFields type, f.name = field ∧ f.isCalculated) ∧ m.fieldResolver? type field = none
  | undefinedType type =>
    ((∃ owner f, d.HasField owner f ∧ f.type.innermostName = type) ∨ ∃ union, d.HasMember union type) ∧
        ¬d.Knows type ∨
      (∃ v, d.HasInput v ∧ v.type.innermostName = type) ∧ (d.Knows type → d.Defines type .object)
  | undefinedInterface interface =>
    (∃ o ∈ d.objectDefinitions, interface ∈ o.interfaces) ∧ ¬d.Defines interface .interface

end Schemata
