import Schemata.Proofs.Generation.References

namespace Schemata

variable {α β : Type} {m : Implementations} {d : Document}

def Document.namesOf (d : Document) (k : Kind) : List String :=
  (d.typeDefinitions.filter fun t => t.kind? = some k).map TypeDefinition.name

def Registry.names (r : Registry) : Kind → List String
  | .builtin _ => []
  | .enum => r.enums.keys
  | .inputObject => r.inputObjects.keys
  | .interface => r.interfaces.keys
  | .object => r.objects.keys
  | .scalar => r.scalars.keys
  | .union => r.unions.keys

def OrderedMap.KeyedBy (name : α → String) (m : OrderedMap α) : Prop :=
  ∀ key a, m.get? key = some a → name a = key

structure Registry.Keyed (r : Registry) : Prop where
  objects : r.objects.KeyedBy ObjectType.name
  interfaces : r.interfaces.KeyedBy InterfaceType.name
  unions : r.unions.KeyedBy UnionType.name
  scalars : r.scalars.KeyedBy ScalarType.name
  enums : r.enums.KeyedBy EnumType.name
  inputObjects : r.inputObjects.KeyedBy InputObjectType.name
  objectFields : ∀ t ∈ r.objects.values, t.fields.KeyedBy Field.name
  interfaceFields : ∀ t ∈ r.interfaces.values, t.fields.KeyedBy Field.name
  arguments : ∀ f ∈ r.fields, ∀ arguments, f.arguments = some arguments → arguments.KeyedBy InputValue.name
  members : ∀ t ∈ r.unions.values, t.members.KeyedBy NamedRef.name
  enumValues : ∀ t ∈ r.enums.values, t.values.KeyedBy EnumValue.name
  inputFields : ∀ t ∈ r.inputObjects.values, t.fields.KeyedBy InputValue.name

theorem Slot.filterMap_select_names (s : Slot α β) (ts : List TypeDefinition) :
    (ts.filterMap s.select).map s.name = (ts.filter fun t => t.kind? = some s.kind).map TypeDefinition.name := by
  induction ts with
  | nil => rfl
  | cons t ts ih =>
    rw [List.filterMap_cons, List.filter_cons]
    cases hs : s.select t with
    | some a =>
      obtain rfl := (s.select_eq_some t a).1 hs
      rw [s.definition_kind, decide_eq_true rfl, if_pos rfl, List.map_cons, List.map_cons, s.definition_name, ih]
    | none =>
      have other : t.kind? ≠ some s.kind := by
        intro hk
        obtain ⟨a, ha⟩ := s.exists_select t hk
        cases hs.symm.trans ha
      rw [decide_eq_false other, if_neg Bool.false_ne_true, ih]

theorem Slot.base_keys (s : Slot α β) (hn : d.declaredNames.Nodup) : (s.get (d.base m)).keys = d.namesOf s.kind := by
  rw [OrderedMap.keys, s.base_entries m hn, List.map_map, Document.namesOf, ← s.filterMap_select_names,
    ← Document.runsOf_items, List.map_map]
  rfl

theorem TypeDefinition.kind?_ne_builtin (t : TypeDefinition) (s : BuiltinScalar) : t.kind? ≠ some (.builtin s) := by
  cases t <;> nofun

theorem Document.namesOf_builtin (d : Document) (s : BuiltinScalar) : d.namesOf (.builtin s) = [] := by
  have none_builtin : ∀ t ∈ d.typeDefinitions, ¬decide (t.kind? = some (.builtin s)) = true :=
    fun t _ h => t.kind?_ne_builtin s (of_decide_eq_true h)
  rw [namesOf, List.filter_eq_nil_iff.2 none_builtin]
  rfl

theorem registry_names (hn : d.declaredNames.Nodup) (k : Kind) : (d.registry m).names k = d.namesOf k := by
  cases k with
  | builtin s => exact (d.namesOf_builtin s).symm
  | object =>
    have extended : (d.registry m).objects.keys = (d.base m).objects.keys := List.map_map ..
    exact extended.trans (Slot.objects.base_keys hn)
  | interface => exact Slot.interfaces.base_keys hn
  | union => exact Slot.unions.base_keys hn
  | scalar => exact Slot.scalars.base_keys hn
  | enum => exact Slot.enums.base_keys hn
  | inputObject => exact Slot.inputObjects.base_keys hn

theorem mem_namesOf {name : String} {k : Kind} : name ∈ d.namesOf k ↔ d.Defines name k := by
  simp only [Document.namesOf, List.mem_map, List.mem_filter, decide_eq_true_eq, Document.Defines, and_assoc]
  exact exists_congr fun t => and_congr_right fun _ => and_comm

theorem namesOf_sublist (d : Document) (k : Kind) : (d.namesOf k).Sublist d.declaredNames := by
  rw [Document.namesOf, Document.declaredNames, Document.declarations]
  induction d.typeDefinitions with
  | nil => exact .slnil
  | cons t ts ih =>
    rw [List.filter_cons, List.filterMap_cons]
    cases hk : t.kind? with
    | none => simpa using ih
    | some k' =>
      by_cases h : k' = k
      · simpa [h] using ih.cons_cons t.name
      · simpa [h] using ih.cons t.name

theorem namesOf_lengths (d : Document) :
    (d.namesOf .enum).length + (d.namesOf .inputObject).length + (d.namesOf .interface).length +
      (d.namesOf .object).length + (d.namesOf .scalar).length + (d.namesOf .union).length =
        (d.typeDefinitions.filter fun t => t.kind?.isSome).length := by
  simp only [Document.namesOf, List.length_map]
  induction d.typeDefinitions with
  | nil => rfl
  | cons t ts ih =>
    simp only [List.filter_cons]
    cases hk : t.kind? with
    | none => simpa using ih
    | some k =>
      cases k with
      | builtin s => exact absurd hk (t.kind?_ne_builtin s)
      | _ =>
        simp
        omega

theorem registry_size (hn : d.declaredNames.Nodup) :
    (d.registry m).size = (d.typeDefinitions.filter fun t => t.kind?.isSome).length := by
  have keys : (d.registry m).size = ((d.registry m).names .enum).length + ((d.registry m).names .inputObject).length +
      ((d.registry m).names .interface).length + ((d.registry m).names .object).length +
      ((d.registry m).names .scalar).length + ((d.registry m).names .union).length := by
    simp only [Registry.size, Registry.names, OrderedMap.size, OrderedMap.keys, List.length_map]
  rw [keys, ← namesOf_lengths]
  simp only [registry_names hn]

section

variable (hv : d.Valid m)
include hv

theorem objectField_origin {type field : String} {o : ObjectType} {f : Field}
    (ho : (d.registry m).objects.get? type = some o) (hf : o.fields.get? field = some f) :
    ∃ b ∈ d.objectDefinitions, b.name = type ∧ ∃ run a, RunBefore b.fields run a ∧ a.name = field ∧
      (d.context m).fieldOf ((d.context m).resolverOf type) run a = f := by
  obtain ⟨-, -, -, -, -, -, -, fields⟩ := registry_object hv ho
  rw [OrderedMap.get?_eq_some_iff, fields, List.mem_flatMap] at hf
  obtain ⟨b, hb, hf⟩ := hf
  obtain ⟨hd, hn⟩ := mem_bodies.1 hb
  exact ⟨b, hd, hn, (collected_get? (hv.body_names hd)).1 (OrderedMap.get?_eq_some_iff.2 hf)⟩

theorem interfaceField_origin {type field : String} {i : InterfaceType} {f : Field}
    (hi : (d.registry m).interfaces.get? type = some i) (hf : i.fields.get? field = some f) :
    ∃ b, .interface b ∈ d.typeDefinitions ∧ b.name = type ∧ ∃ run a, RunBefore b.fields run a ∧ a.name = field ∧
      (d.context m).fieldOf (fun _ => none) run a = f := by
  obtain ⟨run, b, hr, hn, rfl⟩ := (Slot.interfaces.base_get? hv.names).1 hi
  have valid : b.Valid d := hv.definitions _ hr.mem_items
  exact ⟨b, hr.mem_items, hn, (collected_get? valid.names).1 hf⟩

theorem field_origin {f : Field} (hf : f ∈ (d.registry m).fields) :
    ∃ type resolver run a, d.HasField type a ∧ a.Valid d ∧ (d.context m).fieldOf resolver run a = f := by
  rcases List.mem_append.1 hf with hf | hf
  · obtain ⟨o, ho, hf⟩ := List.mem_flatMap.1 hf
    obtain ⟨type, ht⟩ := OrderedMap.mem_values_iff.1 ho
    obtain ⟨field, hn⟩ := OrderedMap.mem_values_iff.1 hf
    obtain ⟨b, hb, -, run, a, ha, -, rfl⟩ := objectField_origin hv ht hn
    exact ⟨_, _, run, a, .inl (mem_objectFields hb ha.mem_items), (hv.body hb).fields a ha.mem_items, rfl⟩
  · obtain ⟨i, hi, hf⟩ := List.mem_flatMap.1 hf
    obtain ⟨type, ht⟩ := OrderedMap.mem_values_iff.1 hi
    obtain ⟨field, hn⟩ := OrderedMap.mem_values_iff.1 hf
    obtain ⟨b, hb, -, run, a, ha, -, rfl⟩ := interfaceField_origin hv ht hn
    have valid : b.Valid d := hv.definitions _ hb
    exact ⟨_, _, run, a, .inr ⟨b, hb, rfl, ha.mem_items⟩, valid.fields a ha.mem_items, rfl⟩

end

theorem collected_keyed {name : α → String} {value : List Comment → α → β} {members : List (Member α)}
    {key : β → String} (hn : ((items members).map name).Nodup) (hk : ∀ run a, key (value run a) = name a) :
    (collected name value members).KeyedBy key := by
  intro k b h
  obtain ⟨run, a, -, rfl, rfl⟩ := (collected_get? hn).1 h
  exact hk run a

theorem fieldOf_keyed {c : Context} {f : FieldDefinition} (hf : f.Valid d)
    {resolver : FieldDefinition → Option BoundFieldResolver} {run : List Comment} {arguments : OrderedMap InputValue}
    (h : (c.fieldOf resolver run f).arguments = some arguments) : arguments.KeyedBy InputValue.name := by
  obtain ⟨members, ha, rfl⟩ := Option.map_eq_some_iff.1 h
  have names := hf.names
  rw [FieldDefinition.inputs, ha, Option.getD_some] at names
  exact collected_keyed names fun _ _ => rfl

theorem members_keys {names : List String} (hn : names.Nodup) : (NamedRef.members names).keys = names := by
  have keys : (names.map fun name => (name, (⟨name, .object⟩ : NamedRef))).map Prod.fst = names := by
    rw [List.map_map]
    exact List.map_id names
  rw [OrderedMap.keys, NamedRef.members, OrderedMap.ofList_entries (keys.symm ▸ hn), keys]

theorem members_keyed {names : List String} (hn : names.Nodup) : (NamedRef.members names).KeyedBy NamedRef.name := by
  have keys : ((names.map fun name => (name, (⟨name, .object⟩ : NamedRef))).map Prod.fst).Nodup := by
    simpa [Function.comp_def] using hn
  intro key ref h
  obtain ⟨name, -, he⟩ := List.mem_map.1 ((OrderedMap.ofList_get? keys).1 h)
  obtain ⟨rfl, rfl⟩ := Prod.mk.inj he
  rfl

theorem registry_keyed (hv : d.Valid m) : (d.registry m).Keyed where
  objects key o h := ((objects_faithful hv.names).of_get h).1
  interfaces key i h := ((Slot.interfaces.faithful rfl hv.names).of_get h).1
  unions key u h := ((Slot.unions.faithful rfl hv.names).of_get h).1
  scalars key s h := ((Slot.scalars.faithful rfl hv.names).of_get h).1
  enums key e h := ((Slot.enums.faithful rfl hv.names).of_get h).1
  inputObjects key i h := ((Slot.inputObjects.faithful rfl hv.names).of_get h).1
  objectFields o ho field f hf := by
    obtain ⟨type, ht⟩ := OrderedMap.mem_values_iff.1 ho
    obtain ⟨b, -, -, run, a, -, rfl, rfl⟩ := objectField_origin hv ht hf
    rfl
  interfaceFields i hi field f hf := by
    obtain ⟨type, ht⟩ := OrderedMap.mem_values_iff.1 hi
    obtain ⟨b, -, -, run, a, -, rfl, rfl⟩ := interfaceField_origin hv ht hf
    rfl
  arguments f hf arguments ha := by
    obtain ⟨type, resolver, run, a, -, valid, rfl⟩ := field_origin hv hf
    exact fieldOf_keyed valid ha
  members u hu := by
    obtain ⟨type, ht⟩ := OrderedMap.mem_values_iff.1 hu
    obtain ⟨run, b, hr, -, rfl⟩ := (Slot.unions.base_get? hv.names).1 ht
    have valid : b.Valid d := hv.definitions _ hr.mem_items
    exact members_keyed valid.names
  enumValues e he := by
    obtain ⟨type, ht⟩ := OrderedMap.mem_values_iff.1 he
    obtain ⟨run, b, hr, -, rfl⟩ := (Slot.enums.base_get? hv.names).1 ht
    have valid : b.Valid m := hv.definitions _ hr.mem_items
    refine collected_keyed ?_ fun _ _ => rfl
    rw [List.map_id]
    exact valid.names
  inputFields i hi := by
    obtain ⟨type, ht⟩ := OrderedMap.mem_values_iff.1 hi
    obtain ⟨run, b, hr, -, rfl⟩ := (Slot.inputObjects.base_get? hv.names).1 ht
    have valid : b.Valid d := hv.definitions _ hr.mem_items
    exact collected_keyed valid.names fun _ _ => rfl

structure Registry.Census (d : Document) (r : Registry) : Prop where
  entry : ∀ t ∈ d.typeDefinitions, ∀ k, t.kind? = some k → (r.names k).count t.name = 1
  alone : ∀ t ∈ d.typeDefinitions, ∀ k k', t.kind? = some k → t.name ∈ r.names k' → k' = k
  reserved : ∀ t ∈ d.typeDefinitions, ∀ k, t.kind? = some k → ∀ s : BuiltinScalar, s.name ≠ t.name
  names : ∀ k, r.names k = d.namesOf k
  keyed : r.Keyed
  size : r.size = (d.typeDefinitions.filter fun t => t.kind?.isSome).length
  lookup_iff : ∀ name, (∃ t, r.lookup name = some t) ↔ (∃ s : BuiltinScalar, s.name = name) ∨ ∃ k, d.Defines name k
  lookup_eq : ∀ name t, r.lookup name = some t → t.name = name ∧ d.HasKind name t.kind

theorem registry_census (hv : d.Valid m) : (d.registry m).Census d where
  entry t ht k hk := by
    rw [registry_names hv.names]
    exact List.count_eq_one_of_mem (hv.names.sublist (namesOf_sublist d k)) (mem_namesOf.2 ⟨t, ht, rfl, hk⟩)
  alone t ht k k' hk h := by
    rw [registry_names hv.names, mem_namesOf] at h
    have own := (hv.agrees t.name k).2 (.inl ⟨t, ht, rfl, hk⟩)
    have other := (hv.agrees t.name k').2 (.inl h)
    exact Option.some.inj (other.symm.trans own)
  reserved t ht k hk s hs :=
    hv.reserved s (hs ▸ (namesOf_sublist d k).subset (mem_namesOf.2 ⟨t, ht, rfl, hk⟩))
  names := registry_names hv.names
  keyed := registry_keyed hv
  size := registry_size hv.names
  lookup_iff name := by
    constructor
    · rintro ⟨t, ht⟩
      rcases (lookup_sound hv.names ht).2 with hd | ⟨s, hs, -⟩
      · exact .inr ⟨t.kind, hd⟩
      · exact .inl ⟨s, hs⟩
    · rintro (⟨s, hs⟩ | ⟨k, hd⟩)
      · exact lookup_complete hv.names ⟨.builtin s, .inr ⟨s, hs, rfl⟩⟩
      · exact lookup_complete hv.names ⟨k, .inl hd⟩
  lookup_eq name t ht := lookup_sound hv.names ht

/-- A generated registry holds what its document defines, once and by kind, and finds it by name. -/
theorem generate_census {r : Registry} (h : generate m d = .ok r) : r.Census d := by
  obtain ⟨hv, rfl⟩ := (generate_decides m d).eq_ok_iff.1 h
  exact registry_census hv

theorem generate_census_extended :
    let id : FieldDefinition := ⟨"id", none, .nonNull (.named "ID")⟩
    let born : FieldDefinition := ⟨"born", none, .named "Date"⟩
    let d : Document := ⟨[.comment ⟨"# Later."⟩, .item (.extension ⟨"User", ["Node"], [.item born]⟩),
      .item (.object ⟨"User", [], [.item id]⟩), .item (.scalar ⟨"Date"⟩), .item (.interface ⟨"Node", [.item id]⟩),
      .item (.object ⟨"Account", ["Node"], [.item id]⟩), .item (.union ⟨"Hit", ["User", "Account"]⟩),
      .item (.enum ⟨"Role", [.item "ADMIN"]⟩), .item (.inputObject ⟨"Page", [.item ⟨"size", .named "Int", none⟩]⟩)]⟩
    ∃ r, generate .empty d = .ok r ∧ r.names .object = ["User", "Account"] ∧ r.size = 7 ∧ r.Census d := by
  intro id born d
  obtain ⟨r, hr, hn, hs⟩ : ∃ r, generate .empty d = .ok r ∧ r.names .object = ["User", "Account"] ∧ r.size = 7 :=
    ⟨_, rfl, by decide +kernel, by decide +kernel⟩
  exact ⟨r, hr, hn, hs, generate_census hr⟩

end Schemata
