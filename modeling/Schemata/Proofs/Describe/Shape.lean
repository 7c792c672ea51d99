import Schemata.Proofs.Describe.Document
import Schemata.Proofs.Document.Limit
import Schemata.Proofs.Generation.Census
import Schemata.Proofs.Generation.Checking
/-!
The shape of a registry: its types without their descriptions and without what implementations provide. The document
that a registry is described by is valid and means a registry of the same shape.
-/

namespace Schemata

open Describe (comments members)

variable {α β γ : Type}

def InputValue.shape (v : InputValue) : InputValue := { v with description := none }

def Field.shape (f : Field) : Field where
  name := f.name
  description := none
  type := f.type
  arguments := f.arguments.map fun arguments => arguments.mapValues fun _ => InputValue.shape
  resolver := none

def ObjectType.shape (t : ObjectType) : ObjectType where
  name := t.name
  description := none
  interfaces := t.interfaces
  fields := t.fields.mapValues fun _ => Field.shape

def InterfaceType.shape (t : InterfaceType) : InterfaceType where
  name := t.name
  description := none
  fields := t.fields.mapValues fun _ => Field.shape
  typeResolver := none

def UnionType.shape (t : UnionType) : UnionType where
  name := t.name
  description := none
  members := t.members
  typeResolver := none

def ScalarType.shape (t : ScalarType) : ScalarType := ⟨t.name, none, .identity⟩

def EnumValue.shape (v : EnumValue) : EnumValue := ⟨v.name, none, .string v.name⟩

def EnumType.shape (t : EnumType) : EnumType := ⟨t.name, none, t.values.mapValues fun _ => EnumValue.shape⟩

def InputObjectType.shape (t : InputObjectType) : InputObjectType :=
  ⟨t.name, none, t.fields.mapValues fun _ => InputValue.shape⟩

def Registry.shape (r : Registry) : Registry where
  objects := r.objects.mapValues fun _ => ObjectType.shape
  interfaces := r.interfaces.mapValues fun _ => InterfaceType.shape
  unions := r.unions.mapValues fun _ => UnionType.shape
  scalars := r.scalars.mapValues fun _ => ScalarType.shape
  enums := r.enums.mapValues fun _ => EnumType.shape
  inputObjects := r.inputObjects.mapValues fun _ => InputObjectType.shape

namespace OrderedMap.KeyedBy

variable {name : β → String} {map : OrderedMap β}

theorem entry (h : map.KeyedBy name) {e : String × β} (he : e ∈ map.entries) : e = (name e.2, e.2) :=
  Prod.ext (h e.1 e.2 (OrderedMap.get?_eq_some_iff.2 he)).symm rfl

theorem values_names (h : map.KeyedBy name) : map.values.map name = map.keys := by
  rw [OrderedMap.values, OrderedMap.keys, List.map_map]
  apply List.map_congr_left
  intro e he
  exact (congrArg Prod.fst (h.entry he)).symm

theorem name_mem_keys (h : map.KeyedBy name) {b : β} (hb : b ∈ map.values) : name b ∈ map.keys :=
  h.values_names ▸ List.mem_map_of_mem hb

theorem mapValues_eq (h : map.KeyedBy name) (value : β → β) {map' : OrderedMap β} {shape : β → γ}
    (he : map'.entries = map.values.map fun b => (name b, value b))
    (hs : ∀ b ∈ map.values, shape (value b) = shape b) :
    (map'.mapValues fun _ => shape) = map.mapValues fun _ => shape := by
  apply OrderedMap.eq_of_entries
  rw [OrderedMap.mapValues_entries, OrderedMap.mapValues_entries, he, OrderedMap.values, List.map_map, List.map_map]
  apply List.map_congr_left
  intro e hm
  exact Prod.ext (congrArg Prod.fst (h.entry hm)).symm (hs e.2 (List.mem_map_of_mem hm))

end OrderedMap.KeyedBy

section

variable {description : β → Option String} {define : β → α} {bs : List β}

theorem withRuns_members :
    withRuns (members description define bs) = bs.map fun b => (comments (description b), define b) :=
  withRuns_writeRuns _

theorem items_members : items (members description define bs) = bs.map define := by
  rw [← withRuns_items, withRuns_members, List.map_map]
  rfl

theorem members_names {map : OrderedMap β} {key : β → String} (hk : map.KeyedBy key) {name : α → String}
    (hn : ∀ b, name (define b) = key b) : (items (members description define map.values)).map name = map.keys := by
  rw [items_members, List.map_map, ← hk.values_names]
  exact List.map_congr_left fun b _ => hn b

theorem collected_members {map : OrderedMap β} {key : β → String} (hk : map.KeyedBy key) {name : α → String}
    (hn : ∀ b, name (define b) = key b) {value : List Comment → α → β} {shape : β → γ}
    (hs : ∀ b ∈ map.values, ∀ run, shape (value run (define b)) = shape b) :
    ((collected name value (members description define map.values)).mapValues fun _ => shape) =
      map.mapValues fun _ => shape := by
  have names : ((items (members description define map.values)).map name).Nodup := by
    rw [members_names hk hn]
    exact map.keys_nodup
  apply hk.mapValues_eq fun b => value (comments (description b)) (define b)
  · rw [collected_entries names, withRuns_members, List.map_map]
    simp only [Function.comp_def, hn]
  · exact fun b hb => hs b hb _

end

theorem document_runs (r : Registry) : withRuns r.document.definitions = r.runs := withRuns_writeRuns _

theorem document_typeDefinitions (r : Registry) : r.document.typeDefinitions = r.runs.map Prod.snd := by
  rw [Document.typeDefinitions, ← withRuns_items, document_runs]

theorem document_extensions (r : Registry) : r.document.extensions = [] := by
  simp [Document.extensions, document_typeDefinitions, Registry.runs, TypeDefinition.extension?]

structure Slot.Describes (s : Slot α β) (define : β → α) (r : Registry) : Prop where
  runs : r.document.runsOf s.select = (s.get r).values.map fun t => (comments (s.type t).description, define t)
  name : ∀ t, s.name (define t) = (s.type t).name
  keyed : (s.get r).KeyedBy fun t => (s.type t).name

section

variable {r : Registry} (hk : r.Keyed)
include hk

theorem describes_objects : Slot.objects.Describes ObjectType.definition r where
  runs := by
    simp [Document.runsOf, document_runs, Registry.runs, Slot.objects, TypeDefinition.object?, SchemaType.description]
  name _ := rfl
  keyed := hk.objects

theorem describes_interfaces : Slot.interfaces.Describes InterfaceType.definition r where
  runs := by
    simp [Document.runsOf, document_runs, Registry.runs, Slot.interfaces, TypeDefinition.interface?,
      SchemaType.description]
  name _ := rfl
  keyed := hk.interfaces

theorem describes_unions : Slot.unions.Describes UnionType.definition r where
  runs := by
    simp [Document.runsOf, document_runs, Registry.runs, Slot.unions, TypeDefinition.union?, SchemaType.description]
  name _ := rfl
  keyed := hk.unions

theorem describes_scalars : Slot.scalars.Describes ScalarType.definition r where
  runs := by
    simp [Document.runsOf, document_runs, Registry.runs, Slot.scalars, TypeDefinition.scalar?, SchemaType.description]
  name _ := rfl
  keyed := hk.scalars

theorem describes_enums : Slot.enums.Describes EnumType.definition r where
  runs := by
    simp [Document.runsOf, document_runs, Registry.runs, Slot.enums, TypeDefinition.enum?, SchemaType.description]
  name _ := rfl
  keyed := hk.enums

theorem describes_inputObjects : Slot.inputObjects.Describes InputObjectType.definition r where
  runs := by
    simp [Document.runsOf, document_runs, Registry.runs, Slot.inputObjects, TypeDefinition.inputObject?,
      SchemaType.description]
  name _ := rfl
  keyed := hk.inputObjects

end

section

variable {s : Slot α β} {define : β → α} {r : Registry}

theorem Slot.Describes.names (h : s.Describes define r) : r.document.namesOf s.kind = (s.get r).keys := by
  rw [Document.namesOf, ← s.filterMap_select_names, ← Document.runsOf_items, h.runs, ← h.keyed.values_names,
    List.map_map, List.map_map]
  exact List.map_congr_left fun t _ => h.name t

theorem Slot.Describes.mapValues_eq (h : s.Describes define r) {m : Implementations}
    (hn : r.document.declaredNames.Nodup) {shape : β → γ}
    (hs : ∀ t ∈ (s.get r).values, ∀ run, shape (s.value (r.document.context m) run (define t)) = shape t) :
    ((s.get (r.document.base m)).mapValues fun _ => shape) = (s.get r).mapValues fun _ => shape := by
  apply h.keyed.mapValues_eq fun t => s.value (r.document.context m) (comments (s.type t).description) (define t)
  · rw [s.base_entries m hn, h.runs, List.map_map]
    exact List.map_congr_left fun t _ => congrArg (·, _) (h.name t)
  · exact fun t ht => hs t ht _

theorem document_names (hk : r.Keyed) (k : Kind) : r.document.namesOf k = r.names k := by
  cases k with
  | builtin s => exact r.document.namesOf_builtin s
  | object => exact (describes_objects hk).names
  | interface => exact (describes_interfaces hk).names
  | union => exact (describes_unions hk).names
  | scalar => exact (describes_scalars hk).names
  | enum => exact (describes_enums hk).names
  | inputObject => exact (describes_inputObjects hk).names

end

theorem document_shape_of_types {r : Registry} (hk : r.Keyed) {n : Implementations} (hn : r.document.declaredNames.Nodup)
    (objects : ∀ t ∈ r.objects.values, ∀ run, ((r.document.context n).objectOf run t.definition).shape = t.shape)
    (interfaces : ∀ t ∈ r.interfaces.values, ∀ run,
      ((r.document.context n).interfaceOf run t.definition).shape = t.shape)
    (unions : ∀ t ∈ r.unions.values, ∀ run, ((r.document.context n).unionOf run t.definition).shape = t.shape)
    (enums : ∀ t ∈ r.enums.values, ∀ run, ((r.document.context n).enumOf run t.definition).shape = t.shape)
    (inputObjects : ∀ t ∈ r.inputObjects.values, ∀ run,
      ((r.document.context n).inputObjectOf run t.definition).shape = t.shape) :
    (r.document.registry n).shape = r.shape := by
  have unextended : r.document.registry n = r.document.base n := by
    rw [Document.registry, document_extensions, List.map_nil, Registry.extended_nil]
  rw [unextended, Registry.shape, Registry.shape, Registry.mk.injEq]
  refine ⟨?_, ?_, ?_, ?_, ?_, ?_⟩
  · exact (describes_objects hk).mapValues_eq hn objects
  · exact (describes_interfaces hk).mapValues_eq hn interfaces
  · exact (describes_unions hk).mapValues_eq hn unions
  · exact (describes_scalars hk).mapValues_eq hn fun _ _ _ => rfl
  · exact (describes_enums hk).mapValues_eq hn enums
  · exact (describes_inputObjects hk).mapValues_eq hn inputObjects

def InputValue.Stands (v : InputValue) : Prop := (v.defaultValue.map Json.literal).map Value.runtimeValue = v.defaultValue

section

variable {d : Document} {c : Context} (hs : c.scope.Agrees d)
include hs

theorem annotationOf_written {a : Annotation} (h : d.Grounds a.innermost) : c.annotationOf a.written = a := by
  induction a with
  | named ref =>
    have kind : c.scope.kind? ref.name = some ref.kind := (hs ref.name ref.kind).2 h
    simp only [Context.annotationOf, Annotation.written, kind, Option.getD_some]
  | list inner ih => simp only [Context.annotationOf, Annotation.written, ih h]
  | nonNull inner ih => simp only [Context.annotationOf, Annotation.written, ih h]

theorem inputValueOf_shape {v : InputValue} (hg : v.Grounded d) (hd : v.Stands) (run : List Comment) :
    (c.inputValueOf run v.definition).shape = v.shape := by
  simp only [Context.inputValueOf, InputValue.definition, InputValue.shape, annotationOf_written hs hg.1]
  rw [InputValue.Stands] at hd
  rw [hd]

theorem inputValuesOf_shape (description : InputValue → Option String) {map : OrderedMap InputValue}
    (hk : map.KeyedBy InputValue.name) (hv : ∀ v ∈ map.values, v.Grounded d ∧ v.Stands) :
    ((c.inputValuesOf (members description InputValue.definition map.values)).mapValues fun _ => InputValue.shape) =
      map.mapValues fun _ => InputValue.shape := by
  refine collected_members hk ?_ fun v hm run => ?_
  · exact fun _ => rfl
  · exact inputValueOf_shape hs (hv v hm).1 (hv v hm).2 run

theorem fieldOf_shape {f : Field} (hg : f.Grounded d) (hd : ∀ v ∈ f.inputs, v.Stands)
    (hk : ∀ arguments, f.arguments = some arguments → arguments.KeyedBy InputValue.name)
    (resolver : FieldDefinition → Option BoundFieldResolver) (run : List Comment) :
    (c.fieldOf resolver run f.definition).shape = f.shape := by
  simp only [Context.fieldOf, Field.definition, Field.shape, annotationOf_written hs hg.1]
  cases ha : f.arguments with
  | none => rfl
  | some arguments =>
    have inputs : f.inputs = arguments.values := by rw [Field.inputs, ha, Option.map_some, Option.getD_some]
    have shape := inputValuesOf_shape hs (fun _ => none) (hk arguments ha) fun v hv =>
      ⟨hg.2 v (inputs ▸ hv), hd v (inputs ▸ hv)⟩
    simp only [Option.map_some, shape]

theorem fieldsOf_shape {fields : OrderedMap Field} (hk : fields.KeyedBy Field.name)
    (hf : ∀ f ∈ fields.values, f.Grounded d ∧ (∀ v ∈ f.inputs, v.Stands) ∧
      ∀ arguments, f.arguments = some arguments → arguments.KeyedBy InputValue.name)
    (resolver : FieldDefinition → Option BoundFieldResolver) :
    ((collected FieldDefinition.name (c.fieldOf resolver)
      (members Field.description Field.definition fields.values)).mapValues fun _ => Field.shape) =
        fields.mapValues fun _ => Field.shape := by
  refine collected_members hk ?_ fun f hm run => ?_
  · exact fun _ => rfl
  · obtain ⟨grounded, stands, arguments⟩ := hf f hm
    exact fieldOf_shape hs grounded stands arguments resolver run

end

theorem enumValuesOf_shape (c : Context) (enum : String) {values : OrderedMap EnumValue}
    (hk : values.KeyedBy EnumValue.name) :
    ((c.enumValuesOf enum (members EnumValue.description EnumValue.name values.values)).mapValues
      fun _ => EnumValue.shape) = values.mapValues fun _ => EnumValue.shape := by
  refine collected_members hk ?_ fun v _ run => ?_
  · exact fun _ => rfl
  · rfl

end Schemata
