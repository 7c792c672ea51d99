import Schemata.Proofs.Documentation.Blocks
import Schemata.Proofs.Generation.Contents
import Schemata.Proofs.Generation.Kinds
/-!
Documents in one piece: what an extension adds stands in the definition of the type it extends. Such a
document means the same, so the late merge of extensions is a matter of notation.
-/

namespace Schemata

variable {α β : Type} {m : Implementations} {d : Document}

def Document.extensionsOf (d : Document) (type : String) : List ObjectDefinition :=
  d.extensions.filter fun e => e.name = type

def ObjectDefinition.absorb (o : ObjectDefinition) (es : List ObjectDefinition) : ObjectDefinition where
  name := o.name
  interfaces := o.interfaces ++ es.flatMap fun e => e.interfaces
  fields := withoutTrailing o.fields ++ es.flatMap fun e => withoutTrailing e.fields

def TypeDefinition.inOnePiece? (d : Document) : TypeDefinition → Option TypeDefinition
  | object o => some (object (o.absorb (d.extensionsOf o.name)))
  | interface i => some (interface i)
  | union u => some (union u)
  | scalar s => some (scalar s)
  | enum e => some (enum e)
  | inputObject i => some (inputObject i)
  | extension _ => none

def Document.inOnePiece (d : Document) : Document where
  definitions :=
    writeRuns ((withRuns d.definitions).filterMap fun p => (p.2.inOnePiece? d).map fun t => (p.1, t)) ++
      (trailing d.definitions).map .comment

/-! ### The parts of a document in one piece -/

theorem withRuns_inOnePiece (d : Document) : withRuns d.inOnePiece.definitions =
    (withRuns d.definitions).filterMap fun p => (p.2.inOnePiece? d).map fun t => (p.1, t) :=
  withRuns_writeRuns_comments _ _

theorem typeDefinitions_inOnePiece (d : Document) :
    d.inOnePiece.typeDefinitions = d.typeDefinitions.filterMap (TypeDefinition.inOnePiece? d) := by
  rw [Document.typeDefinitions, ← withRuns_items, withRuns_inOnePiece, List.map_filterMap,
    Document.typeDefinitions, ← withRuns_items, List.filterMap_map]
  apply List.filterMap_congr
  intro p _
  change Option.map _ (Option.map _ (p.2.inOnePiece? d)) = p.2.inOnePiece? d
  cases p.2.inOnePiece? d <;> rfl

theorem declarations_inOnePiece (d : Document) : d.inOnePiece.declarations = d.declarations := by
  rw [Document.declarations, typeDefinitions_inOnePiece, List.filterMap_filterMap]
  apply List.filterMap_congr
  intro t _
  cases t <;> rfl

theorem extensions_inOnePiece (d : Document) : d.inOnePiece.extensions = [] := by
  rw [Document.extensions, typeDefinitions_inOnePiece, List.filterMap_filterMap, List.filterMap_eq_nil_iff]
  intro t _
  cases t <;> rfl

theorem objects_inOnePiece (d : Document) : d.inOnePiece.typeDefinitions.filterMap TypeDefinition.object? =
    (d.typeDefinitions.filterMap TypeDefinition.object?).map fun o => o.absorb (d.extensionsOf o.name) := by
  rw [typeDefinitions_inOnePiece, List.filterMap_filterMap, List.map_filterMap]
  apply List.filterMap_congr
  intro t _
  cases t <;> rfl

theorem runsOf_inOnePiece (d : Document) {select : TypeDefinition → Option α}
    (h : ∀ t, (t.inOnePiece? d).bind select = select t) : d.inOnePiece.runsOf select = d.runsOf select := by
  rw [Document.runsOf, Document.runsOf, withRuns_inOnePiece, List.filterMap_filterMap]
  apply List.filterMap_congr
  intro p _
  rw [← h p.2]
  cases p.2.inOnePiece? d <;> rfl

theorem runsOf_objects_inOnePiece (d : Document) : d.inOnePiece.runsOf TypeDefinition.object? =
    (d.runsOf TypeDefinition.object?).map fun p => (p.1, p.2.absorb (d.extensionsOf p.2.name)) := by
  rw [Document.runsOf, Document.runsOf, withRuns_inOnePiece, List.filterMap_filterMap, List.map_filterMap]
  apply List.filterMap_congr
  rintro ⟨run, t⟩ _
  cases t <;> rfl

theorem withRuns_absorb (o : ObjectDefinition) (es : List ObjectDefinition) :
    withRuns (o.absorb es).fields = withRuns o.fields ++ es.flatMap fun e => withRuns e.fields := by
  rw [ObjectDefinition.absorb, withRuns_withoutTrailing_append, withRuns_flatMap_withoutTrailing]

theorem items_absorb (o : ObjectDefinition) (es : List ObjectDefinition) :
    items (o.absorb es).fields = items o.fields ++ es.flatMap fun e => items e.fields := by
  rw [← withRuns_items, withRuns_absorb, List.map_append, withRuns_items, List.map_flatMap]
  simp only [withRuns_items]

/-! ### Validity -/

theorem sameKinds_inOnePiece (d : Document) : d.inOnePiece.SameKinds d :=
  Document.SameKinds.of_declarations fun p => by rw [declarations_inOnePiece]

theorem absorb_valid_iff {o : ObjectDefinition} {es : List ObjectDefinition} (hes : ∀ e ∈ es, e.name = o.name) :
    (o.absorb es).Valid m d ↔ o.Valid m d ∧ ∀ e ∈ es, e.Valid m d := by
  have name : (o.absorb es).name = o.name := rfl
  have interfaces : (o.absorb es).interfaces = o.interfaces ++ es.flatMap fun e => e.interfaces := rfl
  simp only [ObjectDefinition.valid_iff, items_absorb, name, interfaces, List.mem_append, List.mem_flatMap]
  constructor
  · rintro ⟨hi, hf⟩
    refine ⟨⟨fun name hn => hi name (.inl hn), fun f h => hf f (.inl h)⟩, fun e he => ⟨?_, ?_⟩⟩
    · exact fun name hn => hi name (.inr ⟨e, he, hn⟩)
    · exact fun f h => hes e he ▸ hf f (.inr ⟨e, he, h⟩)
  · rintro ⟨⟨hi, hf⟩, he⟩
    constructor
    · rintro name (hn | ⟨e, hm, hn⟩)
      · exact hi name hn
      · exact (he e hm).1 name hn
    · rintro f (h | ⟨e, hm, h⟩)
      · exact hf f h
      · exact hes e hm ▸ (he e hm).2 f h

theorem mem_extensionsOf {type : String} {e : ObjectDefinition} :
    e ∈ d.extensionsOf type ↔ .extension e ∈ d.typeDefinitions ∧ e.name = type := by
  rw [Document.extensionsOf, List.mem_filter, mem_extensions, decide_eq_true_eq]

theorem Document.Defines.exists_object {type : String} (h : d.Defines type .object) :
    ∃ o, .object o ∈ d.typeDefinitions ∧ o.name = type := by
  obtain ⟨t, ht, rfl, hk⟩ := h
  cases t with
  | object o => exact ⟨o, ht, rfl⟩
  | _ => cases hk

theorem definitions_inOnePiece_valid_iff (h : ∀ e ∈ d.extensions, d.Defines e.name .object) :
    (∀ t ∈ d.inOnePiece.typeDefinitions, t.Valid m d) ↔ ∀ t ∈ d.typeDefinitions, t.Valid m d := by
  have names : ∀ o : ObjectDefinition, ∀ e ∈ d.extensionsOf o.name, e.name = o.name :=
    fun o e he => (mem_extensionsOf.1 he).2
  rw [typeDefinitions_inOnePiece]
  simp only [List.mem_filterMap]
  constructor
  · intro hv
    have absorbed : ∀ o, .object o ∈ d.typeDefinitions → o.Valid m d ∧ ∀ e ∈ d.extensionsOf o.name, e.Valid m d :=
      fun o ho => (absorb_valid_iff (names o)).1 (hv _ ⟨_, ho, rfl⟩)
    intro t ht
    cases t with
    | object o => exact (absorbed o ht).1
    | extension e =>
      have defined := h e (mem_extensions.2 ht)
      obtain ⟨o, ho, hn⟩ := defined.exists_object
      exact ⟨defined, (absorbed o ho).2 e (mem_extensionsOf.2 ⟨ht, hn.symm⟩)⟩
    | _ => exact hv _ ⟨_, ht, rfl⟩
  · rintro hv t' ⟨t, ht, hp⟩
    cases t with
    | object o =>
      obtain rfl := Option.some.inj hp
      exact (absorb_valid_iff (names o)).2 ⟨hv _ ht, fun e he => (hv _ (mem_extensionsOf.1 he).1).2⟩
    | extension e => cases hp
    | _ => exact Option.some.inj hp ▸ hv _ ht

theorem filter_eq_singleton_of_nodup {name : α → String} {as : List α} (hn : (as.map name).Nodup) {a : α}
    (ha : a ∈ as) : (as.filter fun b => name b = name a) = [a] := by
  induction as with
  | nil => cases ha
  | cons b as ih =>
    rw [List.map_cons, List.nodup_cons] at hn
    rcases List.mem_cons.1 ha with rfl | ha
    · have others : ∀ b ∈ as, ¬name b = name a := fun b hb he => hn.1 (he ▸ List.mem_map_of_mem hb)
      simpa using others
    · have hb : name b ≠ name a := fun he => hn.1 (he ▸ List.mem_map_of_mem ha)
      simpa [hb] using ih hn.2 ha

theorem objectFields_inOnePiece (h : ∀ e ∈ d.extensions, d.Defines e.name .object) (hn : d.declaredNames.Nodup)
    (type : String) : d.inOnePiece.objectFields type = d.objectFields type := by
  have bodies : d.inOnePiece.bodies type = ((d.typeDefinitions.filterMap TypeDefinition.object?).filter
      fun o => o.name = type).map fun o => o.absorb (d.extensionsOf o.name) := by
    rw [Document.bodies, objects_inOnePiece, extensions_inOnePiece, List.append_nil, List.filter_map]
    rfl
  have names : ((d.typeDefinitions.filterMap TypeDefinition.object?).map ObjectDefinition.name).Nodup :=
    hn.sublist (Slot.objects.names_sublist d.typeDefinitions)
  rw [Document.objectFields, Document.objectFields, bodies, Document.bodies, List.filter_append]
  by_cases hd : d.Defines type .object
  · obtain ⟨o, ho, rfl⟩ := hd.exists_object
    rw [filter_eq_singleton_of_nodup names (List.mem_filterMap.2 ⟨_, ho, rfl⟩), List.map_singleton,
      List.flatMap_singleton, items_absorb]
    rfl
  · have objects : ((d.typeDefinitions.filterMap TypeDefinition.object?).filter fun o => o.name = type) = [] := by
      rw [List.filter_eq_nil_iff]
      intro o ho hn
      obtain ⟨t, ht, hs⟩ := List.mem_filterMap.1 ho
      obtain rfl := (Slot.objects.select_eq_some t o).1 hs
      exact hd ⟨_, ht, of_decide_eq_true hn, rfl⟩
    have extensions : (d.extensions.filter fun o => o.name = type) = [] := by
      rw [List.filter_eq_nil_iff]
      intro e he hn
      exact hd (of_decide_eq_true hn ▸ h e he)
    rw [objects, extensions]
    rfl

theorem inOnePiece_valid_iff (h : ∀ e ∈ d.extensions, d.Defines e.name .object) :
    d.inOnePiece.Valid m ↔ d.Valid m := by
  have names : d.inOnePiece.declaredNames = d.declaredNames := by
    rw [Document.declaredNames, declarations_inOnePiece, Document.declaredNames]
  have definitions : (∀ t ∈ d.inOnePiece.typeDefinitions, t.Valid m d.inOnePiece) ↔
      ∀ t ∈ d.typeDefinitions, t.Valid m d := by
    rw [← definitions_inOnePiece_valid_iff h]
    exact forall₂_congr fun t _ => TypeDefinition.valid_congr (sameKinds_inOnePiece d)
  constructor
  · intro hv
    have hn : d.declaredNames.Nodup := names ▸ hv.names
    exact ⟨hn, names ▸ hv.reserved, definitions.1 hv.definitions,
      fun type => objectFields_inOnePiece h hn type ▸ hv.fields type⟩
  · intro hv
    exact ⟨names.symm ▸ hv.names, names.symm ▸ hv.reserved, definitions.2 hv.definitions,
      fun type => (objectFields_inOnePiece h hv.names type).symm ▸ hv.fields type⟩

/-! ### Meaning -/

section

variable (c : Context) (run : List Comment) {o : ObjectDefinition} {es : List ObjectDefinition}

theorem objectOf_entries (h : ((items o.fields).map FieldDefinition.name).Nodup) :
    (c.objectOf run o).fields.entries =
      (withRuns o.fields).map fun p => (p.2.name, c.fieldOf (c.resolverOf o.name) p.1 p.2) :=
  collected_entries h

theorem extensionOf_entries {e : ObjectDefinition} (hn : e.name = o.name)
    (h : ((items e.fields).map FieldDefinition.name).Nodup) :
    (c.extensionOf e).fields.entries =
      (withRuns e.fields).map fun p => (p.2.name, c.fieldOf (c.resolverOf o.name) p.1 p.2) := by
  rw [← hn]
  exact collected_entries h

variable (hes : ∀ e ∈ es, e.name = o.name)
  (hn : ((items o.fields ++ es.flatMap fun e => items e.fields).map FieldDefinition.name).Nodup)
include hes hn

theorem objectOf_absorb_fields : (c.objectOf run (o.absorb es)).fields =
    ((es.map c.extensionOf).foldl .merge (c.objectOf run o)).fields := by
  have own : ((items o.fields).map FieldDefinition.name).Nodup := by
    rw [List.map_append] at hn
    exact hn.of_append_left
  have each : ∀ e ∈ es, ((items e.fields).map FieldDefinition.name).Nodup := by
    intro e he
    refine hn.sublist (.map _ (.trans ?_ (List.sublist_append_right _ _)))
    exact List.sublist_flatten_of_mem (List.mem_map_of_mem he)
  have all : ((items (o.absorb es).fields).map FieldDefinition.name).Nodup := items_absorb o es ▸ hn
  have keys : ((c.objectOf run o).fields.keys ++ (es.map c.extensionOf).flatMap fun e => e.fields.keys).Nodup := by
    rw [List.map_append, List.map_flatMap] at hn
    have hk : ∀ e ∈ es, (c.extensionOf e).fields.keys = (items e.fields).map FieldDefinition.name :=
      fun e he => collected_keys (each e he)
    have ho : (c.objectOf run o).fields.keys = (items o.fields).map FieldDefinition.name := collected_keys own
    rwa [ho, List.flatMap_map, List.flatMap_congr hk]
  have whole := objectOf_entries c run all
  apply OrderedMap.eq_of_entries
  rw [ObjectType.foldl_merge_fields keys, List.flatMap_map, whole, withRuns_absorb, objectOf_entries c run own,
    List.flatMap_congr fun e he => extensionOf_entries c (hes e he) (each e he), List.map_append, List.map_flatMap]
  rfl

theorem objectOf_absorb : c.objectOf run (o.absorb es) = (es.map c.extensionOf).foldl .merge (c.objectOf run o) := by
  have fields := objectOf_absorb_fields c run hes hn
  have interfaces : (c.objectOf run (o.absorb es)).interfaces =
      ((es.map c.extensionOf).foldl .merge (c.objectOf run o)).interfaces :=
    (ObjectType.foldl_merge_interfaces rfl fun _ _ => rfl).symm
  calc c.objectOf run (o.absorb es)
      = ⟨o.name, describe run, (c.objectOf run (o.absorb es)).interfaces, (c.objectOf run (o.absorb es)).fields⟩ := rfl
    _ = ⟨((es.map c.extensionOf).foldl .merge (c.objectOf run o)).name,
          ((es.map c.extensionOf).foldl .merge (c.objectOf run o)).description,
          ((es.map c.extensionOf).foldl .merge (c.objectOf run o)).interfaces,
          ((es.map c.extensionOf).foldl .merge (c.objectOf run o)).fields⟩ := by
        rw [ObjectType.foldl_merge_name, ObjectType.foldl_merge_description, interfaces, fields]
        rfl
    _ = (es.map c.extensionOf).foldl .merge (c.objectOf run o) := rfl

end

theorem filter_extensionOf (c : Context) (d : Document) (type : String) :
    (d.extensions.map c.extensionOf).filter (fun e => e.typeName = type) = (d.extensionsOf type).map c.extensionOf :=
  List.filter_map ..

theorem context_inOnePiece (m : Implementations) (d : Document) : d.inOnePiece.context m = d.context m := by
  rw [Document.context, Document.scope, declarations_inOnePiece]
  rfl

theorem Slot.base_inOnePiece (s : Slot α β) (hn : d.declaredNames.Nodup)
    (h : ∀ t, (t.inOnePiece? d).bind s.select = s.select t) :
    s.get (d.inOnePiece.base m) = s.get (d.base m) := by
  have hn' : d.inOnePiece.declaredNames.Nodup := by rwa [Document.declaredNames, declarations_inOnePiece]
  apply OrderedMap.eq_of_entries
  rw [s.base_entries m hn', s.base_entries m hn, runsOf_inOnePiece d h, context_inOnePiece]

theorem objects_base_inOnePiece (hv : d.Valid m) : (d.inOnePiece.base m).objects = (d.registry m).objects := by
  have hn' : d.inOnePiece.declaredNames.Nodup := by
    rw [Document.declaredNames, declarations_inOnePiece]
    exact hv.names
  have whole : (d.inOnePiece.base m).objects.entries = _ := Slot.objects.base_entries m hn'
  have parts : (d.base m).objects.entries = (d.runsOf TypeDefinition.object?).map fun p =>
      (p.2.name, (d.context m).objectOf p.1 p.2) := Slot.objects.base_entries m hv.names
  apply OrderedMap.eq_of_entries
  rw [whole, Document.registry, Registry.extended, OrderedMap.mapValues_entries, parts, context_inOnePiece]
  change (d.inOnePiece.runsOf TypeDefinition.object?).map _ = _
  rw [runsOf_objects_inOnePiece, List.map_map, List.map_map]
  apply List.map_congr_left
  rintro ⟨run, o⟩ ho
  have ho : .object o ∈ d.typeDefinitions := (Slot.objects.mem_runsOf.1 ho).mem_items
  have names : ((items o.fields ++ (d.extensionsOf o.name).flatMap fun e => items e.fields).map
      FieldDefinition.name).Nodup := by
    have hs : ((d.typeDefinitions.filterMap TypeDefinition.object?).map ObjectDefinition.name).Nodup :=
      hv.names.sublist (Slot.objects.names_sublist d.typeDefinitions)
    have all := hv.fields o.name
    rw [Document.objectFields, Document.bodies, List.filter_append,
      filter_eq_singleton_of_nodup hs (List.mem_filterMap.2 ⟨_, ho, rfl⟩)] at all
    exact all
  have merged := objectOf_absorb (d.context m) run (fun e he => (mem_extensionsOf.1 he).2) names
  simp only [Function.comp_apply, filter_extensionOf, ← merged]
  rfl

theorem registry_inOnePiece (hv : d.Valid m) : d.inOnePiece.registry m = d.registry m := by
  have base : d.inOnePiece.registry m = d.inOnePiece.base m := by
    rw [Document.registry, extensions_inOnePiece]
    exact Registry.extended_nil _
  have interfaces : (d.inOnePiece.base m).interfaces = (d.base m).interfaces :=
    Slot.interfaces.base_inOnePiece hv.names fun t => by cases t <;> rfl
  have unions : (d.inOnePiece.base m).unions = (d.base m).unions :=
    Slot.unions.base_inOnePiece hv.names fun t => by cases t <;> rfl
  have scalars : (d.inOnePiece.base m).scalars = (d.base m).scalars :=
    Slot.scalars.base_inOnePiece hv.names fun t => by cases t <;> rfl
  have enums : (d.inOnePiece.base m).enums = (d.base m).enums :=
    Slot.enums.base_inOnePiece hv.names fun t => by cases t <;> rfl
  have inputObjects : (d.inOnePiece.base m).inputObjects = (d.base m).inputObjects :=
    Slot.inputObjects.base_inOnePiece hv.names fun t => by cases t <;> rfl
  calc d.inOnePiece.registry m = d.inOnePiece.base m := base
    _ = ⟨(d.inOnePiece.base m).objects, (d.inOnePiece.base m).interfaces, (d.inOnePiece.base m).unions,
          (d.inOnePiece.base m).scalars, (d.inOnePiece.base m).enums, (d.inOnePiece.base m).inputObjects⟩ := rfl
    _ = d.registry m := by
        rw [objects_base_inOnePiece hv, interfaces, unions, scalars, enums, inputObjects]
        rfl

/-! ### The types that extensions find -/

namespace Registry

variable {r r' : Registry} {es : List Extension}

theorem extend_keys {e : Extension} (h : r.extend e = .ok r') : r'.objects.keys = r.objects.keys := by
  rw [extend] at h
  split at h
  · cases h
  · next o ho =>
    obtain ⟨o', -, h⟩ := Except.bind_eq_ok_iff.1 h
    obtain rfl := Except.pure_eq_ok_iff.1 h
    have known : e.typeName ∈ r.objects.keys := OrderedMap.mem_keys_iff.2 ⟨o, ho⟩
    rw [OrderedMap.insert_keys, if_pos known]

theorem foldlM_extend_keys (h : es.foldlM extend r = .ok r') : r'.objects.keys = r.objects.keys := by
  induction es generalizing r with
  | nil => exact Except.pure_eq_ok_iff.1 h ▸ rfl
  | cons e es ih =>
    rw [List.foldlM_cons] at h
    obtain ⟨mid, he, h⟩ := Except.bind_eq_ok_iff.1 h
    rw [ih h, extend_keys he]

def Finds (r : Registry) (es : List Extension) : Prop :=
  ∀ before e after r', es = before ++ e :: after → before.foldlM extend r = .ok r' →
    ∃ o, r'.objects.get? e.typeName = some o

theorem finds_of_keys (h : ∀ e ∈ es, e.typeName ∈ r.objects.keys) : r.Finds es := by
  rintro before e after r' rfl hr
  apply OrderedMap.mem_keys_iff.1
  rw [foldlM_extend_keys hr]
  apply h
  simp

end Registry

theorem contributions_find {scope : Scope} {contributions : List Contribution} {lines : DocLines}
    (hs : Scope.ofDocument d = .ok scope)
    (hc : Context.contributions ⟨scope, m⟩ d.definitions .empty = .ok (contributions, lines)) :
    (contributions.foldl Registry.add {}).Finds (contributions.filterMap Contribution.extension?) := by
  have declared : (Scope.ofDocument d).Decides _ _ fun _ => True := ofDocument_decides fun _ _ => trivial
  obtain ⟨hn, rfl⟩ := declared.eq_ok_iff.1 hs
  have names : d.declaredNames.Nodup := (declared_nodup_iff.1 hn).1
  obtain ⟨valid, he⟩ := (Context.contributions_decides (c := d.context m) (scope_agrees hn)).eq_ok_iff.1 hc
  obtain ⟨rfl, -⟩ := Prod.mk.inj he
  have extensions := contributions_extensions m d
  rw [Document.contributions] at extensions
  rw [extensions]
  apply Registry.finds_of_keys
  intro e he
  obtain ⟨o, ho, rfl⟩ := List.mem_map.1 he
  exact (Slot.objects.mem_base_keys names).2 (valid _ (mem_extensions.1 ho)).2.1

/-- A document whose extensions are written into the types they extend gives the same registry, and no
extension ever misses its type. -/
theorem generate_inOnePiece (h : ∀ e ∈ d.extensions, d.Defines e.name .object) :
    (∀ r, generate m d = .ok r ↔ generate m d.inOnePiece = .ok r) ∧
      ∀ scope contributions lines, Scope.ofDocument d = .ok scope →
        Context.contributions ⟨scope, m⟩ d.definitions .empty = .ok (contributions, lines) →
        (contributions.foldl Registry.add {}).Finds (contributions.filterMap Contribution.extension?) := by
  refine ⟨fun r => ?_, fun scope contributions lines hs hc => contributions_find hs hc⟩
  rw [(generate_decides m d).eq_ok_iff, (generate_decides m d.inOnePiece).eq_ok_iff, inOnePiece_valid_iff h]
  apply and_congr_right
  intro hv
  rw [registry_inOnePiece hv]

theorem generate_inOnePiece_twice :
    let id : FieldDefinition := ⟨"id", none, .nonNull (.named "ID")⟩
    let name : FieldDefinition := ⟨"name", none, .named "String"⟩
    let age : FieldDefinition := ⟨"age", none, .named "Int"⟩
    let node : InterfaceDefinition := ⟨"Node", [.item id]⟩
    let first : ObjectDefinition := ⟨"User", ["Node"], [.item name, .comment ⟨"# No field."⟩]⟩
    let user : ObjectDefinition := ⟨"User", ["Node"], [.comment ⟨"# Unique."⟩, .item id, .comment ⟨"# No field."⟩]⟩
    let second : ObjectDefinition := ⟨"User", ["Node"], [.comment ⟨"# In years."⟩, .item age]⟩
    let whole : ObjectDefinition := ⟨"User", ["Node", "Node", "Node"],
      [.comment ⟨"# Unique."⟩, .item id, .item name, .comment ⟨"# In years."⟩, .item age]⟩
    let d : Document := ⟨[.comment ⟨"# More."⟩, .item (.extension first), .comment ⟨"# A person."⟩,
      .item (.object user), .item (.interface node), .item (.extension second), .comment ⟨"# No type."⟩]⟩
    d.inOnePiece = ⟨[.comment ⟨"# A person."⟩, .item (.object whole), .item (.interface node),
        .comment ⟨"# No type."⟩]⟩ ∧
      (∀ e ∈ d.extensions, d.Defines e.name .object) ∧
      ∃ r, generate .empty d = .ok r ∧ generate .empty d.inOnePiece = .ok r ∧
        r.objects.values.map (fun t => (t.interfaces.length, t.fields.keys)) = [(1, ["id", "name", "age"])] ∧
        ∀ scope contributions lines, Scope.ofDocument d = .ok scope →
          Context.contributions ⟨scope, .empty⟩ d.definitions .empty = .ok (contributions, lines) →
          (contributions.foldl Registry.add {}).Finds (contributions.filterMap Contribution.extension?) := by
  intro id name age node first user second whole d
  have hd : d.inOnePiece = ⟨[.comment ⟨"# A person."⟩, .item (.object whole), .item (.interface node),
      .comment ⟨"# No type."⟩]⟩ := by decide +kernel
  have defined : d.Defines "User" .object := ⟨.object user, by decide +kernel, rfl, rfl⟩
  have hx : d.extensions = [first, second] := rfl
  have h : ∀ e ∈ d.extensions, d.Defines e.name .object := by
    intro e he
    rw [hx] at he
    rcases List.mem_pair.1 he with rfl | rfl
    · exact defined
    · exact defined
  obtain ⟨r, hr, hf⟩ : ∃ r, generate .empty d = .ok r ∧
      r.objects.values.map (fun t => (t.interfaces.length, t.fields.keys)) = [(1, ["id", "name", "age"])] :=
    ⟨_, rfl, by decide +kernel⟩
  obtain ⟨same, finds⟩ := generate_inOnePiece (m := .empty) h
  exact ⟨hd, h, r, hr, (same r).1 hr, hf, finds⟩

end Schemata
