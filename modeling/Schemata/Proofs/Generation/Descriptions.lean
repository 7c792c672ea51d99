import Schemata.Proofs.Generation.Contents
import Schemata.Proofs.Generation.IdleComments

namespace Schemata

variable {α β : Type} {m : Implementations} {d : Document}

structure Mirrors (stands : List Comment → α → Prop) (name : α → String)
    (documented : β → List Comment → α → Prop) (map : OrderedMap β) : Prop where
  item_of_entry : ∀ key b, map.get? key = some b → ∃ run a, stands run a ∧ name a = key ∧ documented b run a
  entry_of_item : ∀ run a, stands run a → ∃ b, map.get? (name a) = some b ∧ documented b run a

def InputValue.DocumentedBy (v : InputValue) (run : List Comment) (_ : InputValueDefinition) : Prop :=
  v.description = describe run

structure Field.DocumentedBy (x : Field) (run : List Comment) (f : FieldDefinition) : Prop where
  description : x.description = describe run
  arguments : Option.Rel (fun members => Mirrors (RunBefore members) InputValueDefinition.name
    InputValue.DocumentedBy) f.arguments x.arguments

def EnumValue.DocumentedBy (v : EnumValue) (run : List Comment) (_ : String) : Prop :=
  v.description = describe run

structure ObjectType.DocumentedBy (d : Document) (t : ObjectType) (run : List Comment) (o : ObjectDefinition) :
    Prop where
  description : t.description = describe run
  fields : Mirrors (fun run f => ∃ b ∈ d.bodies o.name, RunBefore b.fields run f) FieldDefinition.name
    Field.DocumentedBy t.fields

structure InterfaceType.DocumentedBy (t : InterfaceType) (run : List Comment) (i : InterfaceDefinition) :
    Prop where
  description : t.description = describe run
  fields : Mirrors (RunBefore i.fields) FieldDefinition.name Field.DocumentedBy t.fields

def UnionType.DocumentedBy (t : UnionType) (run : List Comment) (_ : UnionDefinition) : Prop :=
  t.description = describe run

def ScalarType.DocumentedBy (t : ScalarType) (run : List Comment) (_ : ScalarDefinition) : Prop :=
  t.description = describe run

structure EnumType.DocumentedBy (t : EnumType) (run : List Comment) (e : EnumDefinition) : Prop where
  description : t.description = describe run
  values : Mirrors (RunBefore e.values) id EnumValue.DocumentedBy t.values

structure InputObjectType.DocumentedBy (t : InputObjectType) (run : List Comment) (i : InputObjectDefinition) :
    Prop where
  description : t.description = describe run
  fields : Mirrors (RunBefore i.fields) InputValueDefinition.name InputValue.DocumentedBy t.fields

structure Registry.DocumentedBy (r : Registry) (d : Document) : Prop where
  objects : Mirrors (fun run o => RunBefore d.definitions run (.object o)) ObjectDefinition.name
    (ObjectType.DocumentedBy d) r.objects
  interfaces : Mirrors (fun run i => RunBefore d.definitions run (.interface i)) InterfaceDefinition.name
    InterfaceType.DocumentedBy r.interfaces
  unions : Mirrors (fun run u => RunBefore d.definitions run (.union u)) UnionDefinition.name
    UnionType.DocumentedBy r.unions
  scalars : Mirrors (fun run s => RunBefore d.definitions run (.scalar s)) ScalarDefinition.name
    ScalarType.DocumentedBy r.scalars
  enums : Mirrors (fun run e => RunBefore d.definitions run (.enum e)) EnumDefinition.name
    EnumType.DocumentedBy r.enums
  inputObjects : Mirrors (fun run i => RunBefore d.definitions run (.inputObject i)) InputObjectDefinition.name
    InputObjectType.DocumentedBy r.inputObjects

theorem mirrors_of_get? {stands : List Comment → α → Prop} {name : α → String}
    {documented : β → List Comment → α → Prop} {value : List Comment → α → β} {map : OrderedMap β}
    (h : ∀ key b, map.get? key = some b ↔ ∃ run a, stands run a ∧ name a = key ∧ value run a = b)
    (hv : ∀ run a, stands run a → documented (value run a) run a) : Mirrors stands name documented map where
  item_of_entry key b hb := by
    obtain ⟨run, a, ha, hn, rfl⟩ := (h key b).1 hb
    exact ⟨run, a, ha, hn, hv run a ha⟩
  entry_of_item run a ha := ⟨value run a, (h _ _).2 ⟨run, a, ha, rfl, rfl⟩, hv run a ha⟩

theorem collected_mirrors {name : α → String} {documented : β → List Comment → α → Prop}
    {value : List Comment → α → β} {members : List (Member α)} (hn : ((items members).map name).Nodup)
    (hv : ∀ run, ∀ a ∈ items members, documented (value run a) run a) :
    Mirrors (RunBefore members) name documented (collected name value members) :=
  mirrors_of_get? (fun _ _ => collected_get? hn) fun run a ha => hv run a ha.mem_items

theorem Slot.mirrors (s : Slot α β) (hn : d.declaredNames.Nodup) {documented : β → List Comment → α → Prop}
    (hv : ∀ run a, s.definition a ∈ d.typeDefinitions → documented (s.value (d.context m) run a) run a) :
    Mirrors (fun run a => RunBefore d.definitions run (s.definition a)) s.name documented
      (s.get (d.base m)) :=
  mirrors_of_get? (fun _ _ => s.base_get? hn) fun run a ha => hv run a ha.mem_items

section

variable {c : Context}

theorem inputValuesOf_mirrors {members : List (Member InputValueDefinition)}
    (hn : ((items members).map InputValueDefinition.name).Nodup) :
    Mirrors (RunBefore members) InputValueDefinition.name InputValue.DocumentedBy (c.inputValuesOf members) :=
  collected_mirrors hn fun _ _ _ => rfl

theorem fieldOf_documented {f : FieldDefinition} (hf : f.Valid d)
    (resolver : FieldDefinition → Option BoundFieldResolver) (run : List Comment) :
    (c.fieldOf resolver run f).DocumentedBy run f where
  description := rfl
  arguments := by
    have names := hf.names
    rw [FieldDefinition.inputs] at names
    rw [Context.fieldOf]
    cases ha : f.arguments with
    | none => exact .none
    | some members =>
      rw [ha, Option.getD_some] at names
      exact .some (inputValuesOf_mirrors names)

end

theorem registry_fields (hv : d.Valid m) {type : String} {t : ObjectType}
    (h : (d.registry m).objects.get? type = some t) :
    Mirrors (fun run f => ∃ b ∈ d.bodies type, RunBefore b.fields run f) FieldDefinition.name
      Field.DocumentedBy t.fields := by
  obtain ⟨_, _, _, _, _, _, _, entries⟩ := registry_object hv h
  have bodies : ∀ b ∈ d.bodies type, b ∈ d.objectDefinitions := fun b hb => (mem_bodies.1 hb).1
  apply mirrors_of_get?
  · intro key x
    rw [OrderedMap.get?_eq_some_iff, entries, List.mem_flatMap]
    constructor
    · rintro ⟨b, hb, hx⟩
      have names := hv.body_names (bodies b hb)
      obtain ⟨run, f, hf, hn, hx⟩ := (collected_get? names).1 (OrderedMap.get?_eq_some_iff.2 hx)
      exact ⟨run, f, ⟨b, hb, hf⟩, hn, hx⟩
    · rintro ⟨run, f, ⟨b, hb, hf⟩, hn, hx⟩
      have names := hv.body_names (bodies b hb)
      exact ⟨b, hb, OrderedMap.get?_eq_some_iff.1 ((collected_get? names).2 ⟨run, f, hf, hn, hx⟩)⟩
  · rintro run f ⟨b, hb, hf⟩
    exact fieldOf_documented ((hv.body (bodies b hb)).fields f hf.mem_items) _ run

theorem registry_objects (hv : d.Valid m) :
    Mirrors (fun run o => RunBefore d.definitions run (.object o)) ObjectDefinition.name
      (ObjectType.DocumentedBy d) (d.registry m).objects where
  item_of_entry type t ht := by
    obtain ⟨run, o, ho, rfl, -, description, -⟩ := registry_object hv ht
    exact ⟨run, o, ho, rfl, description, registry_fields hv ht⟩
  entry_of_item run o ho := by
    obtain ⟨t, ht⟩ := (objects_faithful (m := m) hv.names).exists_get ⟨_, ho.mem_items, rfl, rfl⟩
    obtain ⟨run', o', ho', hn, -, description, -⟩ := registry_object hv ht
    -- No other object type has this name.
    have base : (d.base m).objects.get? o.name = some ((d.context m).objectOf run o) :=
      (Slot.objects.base_get? hv.names).2 ⟨run, o, ho, rfl, rfl⟩
    have same : some ((d.context m).objectOf run' o') = some ((d.context m).objectOf run o) :=
      base ▸ ((Slot.objects.base_get? hv.names).2 ⟨run', o', ho', hn, rfl⟩).symm
    have runs : describe run' = describe run := congrArg ObjectType.description (Option.some.inj same)
    exact ⟨t, ht, description.trans runs, registry_fields hv ht⟩

theorem registry_documented (hv : d.Valid m) : (d.registry m).DocumentedBy d where
  objects := registry_objects hv
  interfaces := Slot.interfaces.mirrors hv.names fun _ i hi =>
    have valid : i.Valid d := hv.definitions _ hi
    ⟨rfl, collected_mirrors valid.names fun run' f hf => fieldOf_documented (valid.fields f hf) _ run'⟩
  unions := Slot.unions.mirrors hv.names fun _ _ _ => rfl
  scalars := Slot.scalars.mirrors hv.names fun _ _ _ => rfl
  enums := Slot.enums.mirrors hv.names fun _ e he =>
    have valid : e.Valid m := hv.definitions _ he
    have names : ((items e.values).map id).Nodup := (List.map_id _).symm ▸ valid.names
    ⟨rfl, collected_mirrors names fun _ _ _ => rfl⟩
  inputObjects := Slot.inputObjects.mirrors hv.names fun _ i hi =>
    have valid : i.Valid d := hv.definitions _ hi
    ⟨rfl, inputValuesOf_mirrors valid.names⟩

/-- A comment documents the one item it stands before, and every other comment is without effect. -/
theorem generate_documents {r : Registry} (h : generate m d = .ok r) :
    r.DocumentedBy d ∧ ∀ d' : Document, d'.withoutIdleComments = d.withoutIdleComments → generate m d' = .ok r := by
  obtain ⟨hv, rfl⟩ := (generate_decides m d).eq_ok_iff.1 h
  refine ⟨registry_documented hv, fun d' hd => ?_⟩
  rw [← generate_idle, hd, generate_idle]
  exact h

theorem generate_documents_extended :
    let m := Implementations.empty.field "User" "friends" (.constant .null)
    let friends : FieldDefinition := ⟨"friends", some [.comment ⟨"# No argument."⟩], .list (.named "User")⟩
    let id : FieldDefinition := ⟨"id", none, .nonNull (.named "ID")⟩
    let d : Document := ⟨[
      .comment ⟨"# More."⟩, .item (.extension ⟨"User", [], [.item friends, .comment ⟨"# No field."⟩]⟩),
      .comment ⟨"# A person."⟩, .item (.object ⟨"User", [], [.comment ⟨"# Unique."⟩, .item id]⟩),
      .comment ⟨"# No type."⟩]⟩
    ∃ r, generate m d = .ok r ∧
      r.objects.values.map (fun t => (t.description, t.fields.values.map Field.description)) =
        [(some "A person.", [some "Unique.", none])] ∧
      r.DocumentedBy d ∧ ∀ d' : Document, d'.withoutIdleComments = d.withoutIdleComments → generate m d' = .ok r := by
  intro m friends id d
  obtain ⟨r, hr, hd⟩ : ∃ r, generate m d = .ok r ∧
      r.objects.values.map (fun t => (t.description, t.fields.values.map Field.description)) =
        [(some "A person.", [some "Unique.", none])] := ⟨_, rfl, by decide +kernel⟩
  exact ⟨r, hr, hd, generate_documents hr⟩

end Schemata
