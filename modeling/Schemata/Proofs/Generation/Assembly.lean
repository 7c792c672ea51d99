import Schemata.Proofs.Generation.Meaning

namespace Schemata

variable {α β : Type}

structure Slot (α β : Type) where
  kind : Kind
  definition : α → TypeDefinition
  select : TypeDefinition → Option α
  name : α → String
  value : Context → List Comment → α → β
  get : Registry → OrderedMap β
  type : β → SchemaType
  get_empty : get {} = .empty := by rfl
  get_add : ∀ (c : Context) run t r, get (r.add (c.contributionOf run t)) = match select t with
    | some a => (get r).insert (name a) (value c run a)
    | none => get r := by intro c run t r; cases t <;> rfl
  select_eq_some : ∀ t a, select t = some a ↔ t = definition a := by
    intro t a; cases t <;> exact ⟨fun h => by cases h <;> rfl, fun h => by cases h <;> rfl⟩
  definition_name : ∀ a, (definition a).name = name a := by intro; rfl
  definition_kind : ∀ a, (definition a).kind? = some kind := by intro; rfl
  exists_select : ∀ t, t.kind? = some kind → ∃ a, select t = some a := by
    intro t h; cases t <;> cases h; exact ⟨_, rfl⟩
  type_kind : ∀ b, (type b).kind = kind := by intro; rfl
  type_name : ∀ c run a, (type (value c run a)).name = name a := by intros; rfl

namespace Slot

def objects : Slot ObjectDefinition ObjectType where
  kind := .object
  definition := .object
  select := TypeDefinition.object?
  name := ObjectDefinition.name
  value := Context.objectOf
  get := Registry.objects
  type := .object

def interfaces : Slot InterfaceDefinition InterfaceType where
  kind := .interface
  definition := .interface
  select := TypeDefinition.interface?
  name := InterfaceDefinition.name
  value := Context.interfaceOf
  get := Registry.interfaces
  type := .interface

def unions : Slot UnionDefinition UnionType where
  kind := .union
  definition := .union
  select := TypeDefinition.union?
  name := UnionDefinition.name
  value := Context.unionOf
  get := Registry.unions
  type := .union

def scalars : Slot ScalarDefinition ScalarType where
  kind := .scalar
  definition := .scalar
  select := TypeDefinition.scalar?
  name := ScalarDefinition.name
  value := Context.scalarOf
  get := Registry.scalars
  type := .scalar

def enums : Slot EnumDefinition EnumType where
  kind := .enum
  definition := .enum
  select := TypeDefinition.enum?
  name := EnumDefinition.name
  value := Context.enumOf
  get := Registry.enums
  type := .enum

def inputObjects : Slot InputObjectDefinition InputObjectType where
  kind := .inputObject
  definition := .inputObject
  select := TypeDefinition.inputObject?
  name := InputObjectDefinition.name
  value := Context.inputObjectOf
  get := Registry.inputObjects
  type := .inputObject

end Slot

namespace Document

def runsOf (d : Document) (select : TypeDefinition → Option α) : List (List Comment × α) :=
  (withRuns d.definitions).filterMap fun p => (select p.2).map fun a => (p.1, a)

theorem runsOf_items (d : Document) (select : TypeDefinition → Option α) :
    (d.runsOf select).map Prod.snd = d.typeDefinitions.filterMap select := by
  rw [runsOf, List.map_filterMap, typeDefinitions, ← withRuns_items, List.filterMap_map]
  apply List.filterMap_congr
  intro p _
  change Option.map _ (Option.map _ (select p.2)) = select p.2
  cases select p.2 <;> rfl

end Document

namespace Slot

variable (s : Slot α β)

theorem get_foldl (c : Context) (r : Registry) (runs : List (List Comment × TypeDefinition)) :
    s.get ((runs.map fun p => c.contributionOf p.1 p.2).foldl Registry.add r) =
      ((runs.filterMap fun p => (s.select p.2).map fun a => (p.1, a)).map fun p =>
        (s.name p.2, s.value c p.1 p.2)).foldl (fun m p => m.insert p.1 p.2) (s.get r) := by
  induction runs generalizing r with
  | nil => rfl
  | cons p runs ih =>
    rw [List.map_cons, List.foldl_cons, ih, s.get_add, List.filterMap_cons]
    cases s.select p.2 <;> rfl

theorem names_sublist (ts : List TypeDefinition) :
    ((ts.filterMap s.select).map s.name).Sublist
      ((ts.filterMap fun t => t.kind?.map fun kind => (t.name, kind)).map Prod.fst) := by
  induction ts with
  | nil => exact .slnil
  | cons t ts ih =>
    rw [List.filterMap_cons, List.filterMap_cons]
    cases hs : s.select t with
    | some a =>
      obtain rfl := (s.select_eq_some t a).1 hs
      simp only [s.definition_kind, Option.map_some, List.map_cons, s.definition_name]
      exact ih.cons_cons _
    | none =>
      cases t.kind? with
      | none => exact ih
      | some kind => exact ih.cons _

theorem mem_runsOf {d : Document} {run : List Comment} {a : α} :
    (run, a) ∈ d.runsOf s.select ↔ RunBefore d.definitions run (s.definition a) := by
  simp only [Document.runsOf, List.mem_filterMap, Option.map_eq_some_iff, Prod.mk.injEq, Prod.exists,
    s.select_eq_some, ← mem_withRuns_iff]
  constructor
  · rintro ⟨_, _, ht, _, rfl, rfl, rfl⟩
    exact ht
  · intro ht
    exact ⟨run, _, ht, a, rfl, rfl, rfl⟩

theorem base_entries (m : Implementations) {d : Document} (hn : d.declaredNames.Nodup) :
    (s.get (d.base m)).entries =
      (d.runsOf s.select).map fun p => (s.name p.2, s.value (d.context m) p.1 p.2) := by
  have h : (((d.runsOf s.select).map fun p => (s.name p.2, s.value (d.context m) p.1 p.2)).map
      Prod.fst).Nodup := by
    have names := s.names_sublist d.typeDefinitions
    rw [← Document.runsOf_items, List.map_map] at names
    rw [List.map_map]
    exact hn.sublist names
  rw [Document.base, Document.contributions, get_foldl, s.get_empty]
  exact OrderedMap.ofList_entries h

theorem base_get? {m : Implementations} {d : Document} (hn : d.declaredNames.Nodup) {name : String} {b : β} :
    (s.get (d.base m)).get? name = some b ↔
      ∃ run a, RunBefore d.definitions run (s.definition a) ∧ s.name a = name ∧ s.value (d.context m) run a = b := by
  simp only [OrderedMap.get?_eq_some_iff, s.base_entries m hn, List.mem_map, Prod.mk.injEq, Prod.exists,
    s.mem_runsOf]

theorem mem_base_keys {m : Implementations} {d : Document} (hn : d.declaredNames.Nodup) {name : String} :
    name ∈ (s.get (d.base m)).keys ↔ d.Defines name s.kind := by
  rw [OrderedMap.mem_keys_iff]
  constructor
  · rintro ⟨_, h⟩
    obtain ⟨run, a, hr, rfl, -⟩ := (s.base_get? hn).1 h
    exact ⟨_, hr.mem_items, s.definition_name a, s.definition_kind a⟩
  · rintro ⟨t, ht, rfl, hk⟩
    obtain ⟨a, ha⟩ := s.exists_select t hk
    obtain rfl := (s.select_eq_some t a).1 ha
    obtain ⟨run, hr⟩ := exists_runBefore ht
    exact ⟨_, (s.base_get? hn).2 ⟨run, a, hr, (s.definition_name a).symm, rfl⟩⟩

end Slot

theorem contributions_extensions (m : Implementations) (d : Document) :
    (d.contributions m).filterMap Contribution.extension? = d.extensions.map (d.context m).extensionOf := by
  rw [Document.contributions, List.filterMap_map, Document.extensions, Document.typeDefinitions,
    ← withRuns_items, List.filterMap_map, List.map_filterMap]
  apply List.filterMap_congr
  rintro ⟨run, t⟩ -
  cases t <;> rfl

end Schemata
