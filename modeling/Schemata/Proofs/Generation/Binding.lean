import Schemata.Proofs.Generation.Census

namespace Schemata

variable {m : Implementations} {d : Document}

structure Field.Bound (m : Implementations) (type name : String) (f : Field) : Prop where
  isSome_iff : f.resolver.isSome ↔ (m.fieldResolver? type name).isSome
  resolver : ∀ b, f.resolver = some b → m.fieldResolver? type name = some b.resolver
  returns : ∀ b params value, f.resolver = some b → b.resolver { params with info := ⟨type, name⟩ } = .ok value →
    b.invoke params = .ok value
  fails : ∀ b params e, f.resolver = some b → b.resolver { params with info := ⟨type, name⟩ } = .error e →
    b.invoke params = .error (.field type name e)
  calculated : f.arguments.isSome → f.resolver.isSome

def EnumValue.Bound (m : Implementations) (enum name : String) (v : EnumValue) : Prop :=
  match m.enumValues? enum with
  | some values => values.get? name = some v.value
  | none => v.value = .string name

structure Registry.Bound (m : Implementations) (d : Document) (r : Registry) : Prop where
  objectFields : ∀ type o name f, r.objects.get? type = some o → o.fields.get? name = some f → f.Bound m type name
  written : ∀ b ∈ d.objectDefinitions, ∀ a ∈ items b.fields,
    ∃ o f, r.objects.get? b.name = some o ∧ o.fields.get? a.name = some f
  interfaceFields : ∀ i ∈ r.interfaces.values, ∀ f ∈ i.fields.values, f.resolver = none
  interfaces : ∀ type i, r.interfaces.get? type = some i → i.typeResolver = (m.typeResolver? type).map (⟨type, ·⟩)
  unions : ∀ type u, r.unions.get? type = some u → u.typeResolver = (m.typeResolver? type).map (⟨type, ·⟩)
  scalars : ∀ type s, r.scalars.get? type = some s → s.implementation = (m.scalar? type).getD .identity
  enumValues : ∀ type e name v, r.enums.get? type = some e → e.values.get? name = some v → v.Bound m type name

theorem BoundFieldResolver.invoke_of_ok {b : BoundFieldResolver} {params : ResolveParams} {value : Json}
    (h : b.resolver { params with info := ⟨b.typeName, b.fieldName⟩ } = .ok value) : b.invoke params = .ok value := by
  rw [invoke, h]
  rfl

theorem BoundFieldResolver.invoke_of_error {b : BoundFieldResolver} {params : ResolveParams} {e : ResolverError}
    (h : b.resolver { params with info := ⟨b.typeName, b.fieldName⟩ } = .error e) :
    b.invoke params = .error (.field b.typeName b.fieldName e) := by
  rw [invoke, h]
  rfl

theorem Context.resolverOf_eq_some {c : Context} {type : String} {f : FieldDefinition} {b : BoundFieldResolver}
    (h : c.resolverOf type f = some b) : b.typeName = type ∧ b.fieldName = f.name ∧
      c.implementations.fieldResolver? type f.name = some b.resolver := by
  obtain ⟨resolver, hr, rfl⟩ := Option.map_eq_some_iff.1 h
  exact ⟨rfl, rfl, hr⟩

theorem fieldOf_bound {c : Context} {type : String} {f : FieldDefinition} (run : List Comment)
    (hc : f.isCalculated → (c.implementations.fieldResolver? type f.name).isSome) :
    (c.fieldOf (c.resolverOf type) run f).Bound c.implementations type f.name where
  isSome_iff := by
    rw [Context.fieldOf, Context.resolverOf, Option.isSome_map]
  resolver b hb := (Context.resolverOf_eq_some hb).2.2
  returns b params value hb hv := by
    obtain ⟨rfl, hn, -⟩ := Context.resolverOf_eq_some hb
    exact b.invoke_of_ok (hn ▸ hv)
  fails b params e hb he := by
    obtain ⟨rfl, hn, -⟩ := Context.resolverOf_eq_some hb
    rw [← hn] at he ⊢
    exact b.invoke_of_error he
  calculated ha := by
    rw [Context.fieldOf, Option.isSome_map] at ha
    rw [Context.fieldOf, Context.resolverOf, Option.isSome_map]
    exact hc ha

section

variable (hv : d.Valid m)
include hv

theorem objectField_bound {type name : String} {o : ObjectType} {f : Field}
    (ho : (d.registry m).objects.get? type = some o) (hf : o.fields.get? name = some f) : f.Bound m type name := by
  obtain ⟨b, hb, rfl, run, a, ha, rfl, rfl⟩ := objectField_origin hv ho hf
  exact fieldOf_bound (c := d.context m) run ((hv.body hb).resolvers a ha.mem_items)

theorem exists_objectField {b : ObjectDefinition} (hb : b ∈ d.objectDefinitions) {a : FieldDefinition}
    (ha : a ∈ items b.fields) :
    ∃ o f, (d.registry m).objects.get? b.name = some o ∧ o.fields.get? a.name = some f := by
  obtain ⟨o, ho⟩ := (objects_faithful (m := m) hv.names).exists_get (hv.body_defines hb)
  obtain ⟨-, -, -, -, -, -, -, fields⟩ := registry_object hv ho
  obtain ⟨run, ha⟩ := exists_runBefore ha
  have held : (a.name, (d.context m).fieldOf ((d.context m).resolverOf b.name) run a) ∈ o.fields.entries := by
    rw [fields]
    have own : ((d.context m).objectFieldsOf b.name b.fields).get? a.name = some _ :=
      (collected_get? (hv.body_names hb)).2 ⟨run, a, ha, rfl, rfl⟩
    exact List.mem_flatMap.2 ⟨b, mem_bodies.2 ⟨hb, rfl⟩, OrderedMap.get?_eq_some_iff.1 own⟩
  exact ⟨o, _, ho, OrderedMap.get?_eq_some_iff.2 held⟩

theorem enumValueOf_bound {e : EnumDefinition} (he : .enum e ∈ d.typeDefinitions) (run : List Comment) {name : String}
    (hn : name ∈ items e.values) : ((d.context m).enumValueOf e.name run name).Bound m e.name name := by
  have valid : e.Valid m := hv.definitions _ he
  rw [EnumValue.Bound]
  cases hm : m.enumValues? e.name with
  | none => simp only [Context.enumValueOf, Context.valueOf, Document.context, hm]
  | some values =>
    obtain ⟨j, hj⟩ := Option.isSome_iff_exists.1 (valid.values values hm name hn)
    simp only [Context.enumValueOf, Context.valueOf, Document.context, hm, hj, Option.getD_some]

theorem registry_bound : (d.registry m).Bound m d where
  objectFields type o name f := objectField_bound hv
  written b hb a ha := exists_objectField hv hb ha
  interfaceFields i hi f hf := by
    obtain ⟨type, ht⟩ := OrderedMap.mem_values_iff.1 hi
    obtain ⟨name, hn⟩ := OrderedMap.mem_values_iff.1 hf
    obtain ⟨b, -, -, run, a, -, -, rfl⟩ := interfaceField_origin hv ht hn
    rfl
  interfaces type i hi := by
    obtain ⟨run, b, -, rfl, rfl⟩ := (Slot.interfaces.base_get? hv.names).1 hi
    rfl
  unions type u hu := by
    obtain ⟨run, b, -, rfl, rfl⟩ := (Slot.unions.base_get? hv.names).1 hu
    rfl
  scalars type s hs := by
    obtain ⟨run, b, -, rfl, rfl⟩ := (Slot.scalars.base_get? hv.names).1 hs
    rfl
  enumValues type e name v he h := by
    obtain ⟨run, b, hr, rfl, rfl⟩ := (Slot.enums.base_get? hv.names).1 he
    have valid : b.Valid m := hv.definitions _ hr.mem_items
    have names : ((items b.values).map id).Nodup := by rw [List.map_id]; exact valid.names
    obtain ⟨run', a, ha, rfl, rfl⟩ := (collected_get? names).1 h
    exact enumValueOf_bound hv hr.mem_items run' ha.mem_items

end

/-- What a generated registry runs is what the implementations provide under the names of its types and fields. -/
theorem generate_binds {r : Registry} (h : generate m d = .ok r) : r.Bound m d := by
  obtain ⟨hv, rfl⟩ := (generate_decides m d).eq_ok_iff.1 h
  exact registry_bound hv

theorem generate_binds_extended :
    let failing : FieldResolver := fun params => .error (.message params.info.field)
    let m := (((Implementations.empty.field "User" "friends" failing).field "Node" "id" (.constant .null)).enumValue
      "Role" "ADMIN" (.int 1)).resolveType "Hit" (.byName fun _ => "User")
    let id : FieldDefinition := ⟨"id", none, .nonNull (.named "ID")⟩
    let d : Document := ⟨[
      .item (.extension ⟨"User", ["Node"], [.item ⟨"friends", some [], .list (.named "User")⟩]⟩),
      .item (.object ⟨"User", [], [.item id]⟩), .item (.interface ⟨"Node", [.item id]⟩), .item (.scalar ⟨"Date"⟩),
      .item (.union ⟨"Hit", ["User"]⟩), .item (.enum ⟨"Role", [.item "ADMIN"]⟩), .item (.enum ⟨"Unit", [.item "M"]⟩)]⟩
    ∃ r, generate m d = .ok r ∧ r.Bound m d ∧
      r.objects.values.map (fun o => o.fields.values.map fun f => f.resolver.isSome) = [[false, true]] := by
  intro failing m id d
  obtain ⟨r, hr, hb⟩ : ∃ r, generate m d = .ok r ∧
      r.objects.values.map (fun o => o.fields.values.map fun f => f.resolver.isSome) = [[false, true]] :=
    ⟨_, rfl, by decide +kernel⟩
  exact ⟨r, hr, generate_binds hr, hb⟩

end Schemata
