import Schemata.Proofs.Generation.Contents

namespace Schemata

variable {m : Implementations} {d : Document}

def Field.inputs (f : Field) : List InputValue := (f.arguments.map OrderedMap.values).getD []

namespace Registry

variable (r : Registry)

def fields : List Field :=
  r.objects.values.flatMap (fun o => o.fields.values) ++ r.interfaces.values.flatMap fun i => i.fields.values

def inputs : List InputValue := r.fields.flatMap Field.inputs ++ r.inputObjects.values.flatMap fun i => i.fields.values

def fieldRefs : List NamedRef := r.fields.map fun f => f.type.innermost

def inputRefs : List NamedRef := r.inputs.map fun v => v.type.innermost

def interfaceRefs : List NamedRef := r.objects.values.flatMap fun o => o.interfaces

def memberRefs : List NamedRef := r.unions.values.flatMap fun u => u.members.values

def refs : List NamedRef := r.fieldRefs ++ r.inputRefs ++ r.interfaceRefs ++ r.memberRefs

variable {r}

theorem mem_fields_of_object {t : ObjectType} (ht : t ∈ r.objects.values) {f : Field} (hf : f ∈ t.fields.values) :
    f ∈ r.fields :=
  List.mem_append_left _ (List.mem_flatMap.2 ⟨t, ht, hf⟩)

theorem mem_fields_of_interface {t : InterfaceType} (ht : t ∈ r.interfaces.values) {f : Field}
    (hf : f ∈ t.fields.values) : f ∈ r.fields :=
  List.mem_append_right _ (List.mem_flatMap.2 ⟨t, ht, hf⟩)

theorem mem_inputs_of_field {f : Field} (hf : f ∈ r.fields) {v : InputValue} (hv : v ∈ f.inputs) : v ∈ r.inputs :=
  List.mem_append_left _ (List.mem_flatMap.2 ⟨f, hf, hv⟩)

theorem mem_inputs_of_inputObject {t : InputObjectType} (ht : t ∈ r.inputObjects.values) {v : InputValue}
    (hv : v ∈ t.fields.values) : v ∈ r.inputs :=
  List.mem_append_right _ (List.mem_flatMap.2 ⟨t, ht, hv⟩)

end Registry

def Document.Grounds (d : Document) (ref : NamedRef) : Prop := d.HasKind ref.name ref.kind

def InputValue.Grounded (d : Document) (v : InputValue) : Prop :=
  d.Grounds v.type.innermost ∧ v.type.innermost.kind ≠ .object

def Field.Grounded (d : Document) (f : Field) : Prop :=
  d.Grounds f.type.innermost ∧ ∀ v ∈ f.inputs, v.Grounded d

section

variable {c : Context}

theorem annotationOf_name (t : TypeRef) : (c.annotationOf t).innermost.name = t.innermostName := by
  induction t with
  | named name => rfl
  | list inner ih => exact ih
  | nonNull inner ih => exact ih

theorem annotationOf_grounded (hs : c.scope.Agrees d) {t : TypeRef} (h : d.Knows t.innermostName) :
    d.Grounds (c.annotationOf t).innermost := by
  induction t with
  | named name =>
    obtain ⟨kind, hk⟩ := h
    have hn := (hs name kind).2 hk
    simpa [Document.Grounds, Context.annotationOf, Annotation.innermost, hn] using (hs name kind).1 hn
  | list inner ih => exact ih h
  | nonNull inner ih => exact ih h

theorem inputValueOf_grounded (hs : c.scope.Agrees d) {v : InputValueDefinition} (hv : v.Valid d)
    (run : List Comment) : (c.inputValueOf run v).Grounded d := by
  have grounded := annotationOf_grounded hs hv.1
  refine ⟨grounded, fun hk => hv.2 ?_⟩
  rw [← d.hasKind_iff_defines rfl, ← annotationOf_name (c := c) v.type, ← hk]
  exact grounded

theorem inputValuesOf_grounded (hs : c.scope.Agrees d) {members : List (Member InputValueDefinition)}
    (hn : ((items members).map InputValueDefinition.name).Nodup) (hv : ∀ v ∈ items members, v.Valid d)
    {v : InputValue} (h : v ∈ (c.inputValuesOf members).values) : v.Grounded d := by
  obtain ⟨key, hk⟩ := OrderedMap.mem_values_iff.1 h
  obtain ⟨run, a, ha, -, rfl⟩ := (collected_get? hn).1 hk
  exact inputValueOf_grounded hs (hv a ha.mem_items) run

theorem fieldOf_grounded (hs : c.scope.Agrees d) {f : FieldDefinition} (hf : f.Valid d)
    (resolver : FieldDefinition → Option BoundFieldResolver) (run : List Comment) :
    (c.fieldOf resolver run f).Grounded d := by
  refine ⟨annotationOf_grounded hs hf.type, fun v hv => ?_⟩
  obtain ⟨-, names, inputs⟩ := hf
  rw [FieldDefinition.inputs] at names inputs
  rw [Field.inputs, Context.fieldOf] at hv
  cases ha : f.arguments with
  | none => simp [ha] at hv
  | some members =>
    rw [ha, Option.getD_some] at names inputs
    simp only [ha, Option.map_some, Option.getD_some] at hv
    exact inputValuesOf_grounded hs names inputs hv

theorem fieldsOf_grounded (hs : c.scope.Agrees d) {members : List (Member FieldDefinition)}
    {resolver : FieldDefinition → Option BoundFieldResolver}
    (hn : ((items members).map FieldDefinition.name).Nodup) (hf : ∀ f ∈ items members, f.Valid d) {f : Field}
    (h : f ∈ (collected FieldDefinition.name (c.fieldOf resolver) members).values) : f.Grounded d := by
  obtain ⟨key, hk⟩ := OrderedMap.mem_values_iff.1 h
  obtain ⟨run, a, ha, -, rfl⟩ := (collected_get? hn).1 hk
  exact fieldOf_grounded hs (hf a ha.mem_items) resolver run

end

section

variable (hv : d.Valid m)
include hv

theorem objectField_grounded {f : Field} (hf : f ∈ (d.registry m).objects.values.flatMap fun o => o.fields.values) :
    f.Grounded d := by
  obtain ⟨o, ho, hf⟩ := List.mem_flatMap.1 hf
  obtain ⟨type, ht⟩ := OrderedMap.mem_values_iff.1 ho
  obtain ⟨run, b, -, -, -, -, -, he⟩ := registry_object hv ht
  obtain ⟨e, hm, rfl⟩ := List.mem_map.1 hf
  rw [he] at hm
  obtain ⟨body, hb, hm⟩ := List.mem_flatMap.1 hm
  have hd := (mem_bodies.1 hb).1
  exact fieldsOf_grounded (c := d.context m) hv.agrees (hv.body_names hd) (hv.body hd).fields
    (List.mem_map_of_mem hm)

theorem interfaceField_grounded {f : Field}
    (hf : f ∈ (d.registry m).interfaces.values.flatMap fun i => i.fields.values) : f.Grounded d := by
  obtain ⟨i, hi, hf⟩ := List.mem_flatMap.1 hf
  obtain ⟨type, ht⟩ := OrderedMap.mem_values_iff.1 hi
  obtain ⟨run, b, hr, -, rfl⟩ := (Slot.interfaces.base_get? hv.names).1 ht
  have valid : b.Valid d := hv.definitions _ hr.mem_items
  exact fieldsOf_grounded (c := d.context m) hv.agrees valid.names valid.fields hf

theorem field_grounded {f : Field} (hf : f ∈ (d.registry m).fields) : f.Grounded d := by
  rcases List.mem_append.1 hf with hf | hf
  · exact objectField_grounded hv hf
  · exact interfaceField_grounded hv hf

theorem input_grounded {v : InputValue} (h : v ∈ (d.registry m).inputs) : v.Grounded d := by
  rcases List.mem_append.1 h with h | h
  · obtain ⟨f, hf, h⟩ := List.mem_flatMap.1 h
    exact (field_grounded hv hf).2 v h
  · obtain ⟨i, hi, h⟩ := List.mem_flatMap.1 h
    obtain ⟨type, ht⟩ := OrderedMap.mem_values_iff.1 hi
    obtain ⟨run, b, hr, -, rfl⟩ := (Slot.inputObjects.base_get? hv.names).1 ht
    have valid : b.Valid d := hv.definitions _ hr.mem_items
    exact inputValuesOf_grounded (c := d.context m) hv.agrees valid.names valid.fields h

theorem interfaceRef_grounded {ref : NamedRef} (h : ref ∈ (d.registry m).interfaceRefs) :
    d.Grounds ref ∧ ref.kind = .interface := by
  obtain ⟨o, ho, h⟩ := List.mem_flatMap.1 h
  obtain ⟨type, ht⟩ := OrderedMap.mem_values_iff.1 ho
  obtain ⟨run, b, -, -, -, -, hi, -⟩ := registry_object hv ht
  rw [hi, NamedRef.interfaces, List.mem_map] at h
  obtain ⟨name, hn, rfl⟩ := h
  obtain ⟨body, hb, hn⟩ := List.mem_flatMap.1 (List.mem_eraseDups.1 hn)
  exact ⟨.inl ((hv.body (mem_bodies.1 hb).1).interfaces name hn), rfl⟩

theorem memberRef_grounded {ref : NamedRef} (h : ref ∈ (d.registry m).memberRefs) :
    d.Grounds ref ∧ ref.kind = .object := by
  obtain ⟨u, hu, h⟩ := List.mem_flatMap.1 h
  obtain ⟨type, ht⟩ := OrderedMap.mem_values_iff.1 hu
  obtain ⟨run, b, hr, -, rfl⟩ := (Slot.unions.base_get? hv.names).1 ht
  have valid : b.Valid d := hv.definitions _ hr.mem_items
  obtain ⟨key, hk⟩ := OrderedMap.mem_values_iff.1 h
  have names : ((b.members.map fun name => (name, (⟨name, .object⟩ : NamedRef))).map Prod.fst).Nodup := by
    simpa [Function.comp_def] using valid.names
  obtain ⟨name, hn, he⟩ := List.mem_map.1 ((OrderedMap.ofList_get? names).1 hk)
  obtain ⟨rfl, rfl⟩ := Prod.mk.inj he
  exact ⟨.inl (valid.members name hn), rfl⟩

theorem deref_of_grounds {ref : NamedRef} (h : d.Grounds ref) :
    ∃ t, (d.registry m).deref ref = .ok t ∧ t.name = ref.name ∧ t.kind = ref.kind := by
  obtain ⟨t, ht, hn, hk⟩ := lookup_of_hasKind hv h
  exact ⟨t, by rw [Registry.deref, ht], hn, hk⟩

end

/-- Every reference in a generated registry means a type of the kind it records. -/
theorem generate_references {r : Registry} (h : generate m d = .ok r) :
    (∀ ref ∈ r.refs, ∃ t, r.deref ref = .ok t ∧ t.name = ref.name ∧ t.kind = ref.kind) ∧
      (∀ ref ∈ r.interfaceRefs, ref.kind = .interface) ∧ (∀ ref ∈ r.memberRefs, ref.kind = .object) ∧
      ∀ ref ∈ r.inputRefs, ref.kind ≠ .object := by
  obtain ⟨hv, rfl⟩ := (generate_decides m d).eq_ok_iff.1 h
  have input : ∀ ref ∈ (d.registry m).inputRefs, d.Grounds ref ∧ ref.kind ≠ .object := by
    intro ref hr
    obtain ⟨v, hm, rfl⟩ := List.mem_map.1 hr
    exact input_grounded hv hm
  refine ⟨fun ref hr => deref_of_grounds hv ?_, fun ref hr => (interfaceRef_grounded hv hr).2,
    fun ref hr => (memberRef_grounded hv hr).2, fun ref hr => (input ref hr).2⟩
  simp only [Registry.refs, List.mem_append] at hr
  rcases hr with ((hr | hr) | hr) | hr
  · obtain ⟨f, hf, rfl⟩ := List.mem_map.1 hr
    exact (field_grounded hv hf).1
  · exact (input ref hr).1
  · exact (interfaceRef_grounded hv hr).1
  · exact (memberRef_grounded hv hr).1

theorem generate_references_extended :
    let m := Implementations.empty.field "User" "friends" (.constant .null)
    let page : InputValueDefinition := ⟨"page", .named "Page", none⟩
    let id : FieldDefinition := ⟨"id", none, .nonNull (.named "ID")⟩
    let d : Document := ⟨[
      .item (.extension ⟨"User", ["Node"], [.item ⟨"friends", some [.item page], .list (.named "User")⟩]⟩),
      .item (.object ⟨"User", [], [.item id]⟩), .item (.interface ⟨"Node", [.item id]⟩),
      .item (.union ⟨"Hit", ["User"]⟩), .item (.inputObject ⟨"Page", [.item ⟨"size", .named "Int", none⟩]⟩)]⟩
    ∃ r, generate m d = .ok r ∧ r.refs.length = 7 ∧
      (∀ ref ∈ r.refs, ∃ t, r.deref ref = .ok t ∧ t.name = ref.name ∧ t.kind = ref.kind) ∧
      (∀ ref ∈ r.interfaceRefs, ref.kind = .interface) ∧ (∀ ref ∈ r.memberRefs, ref.kind = .object) ∧
      ∀ ref ∈ r.inputRefs, ref.kind ≠ .object := by
  intro m page id d
  obtain ⟨r, hr, hl⟩ : ∃ r, generate m d = .ok r ∧ r.refs.length = 7 := ⟨_, rfl, by decide +kernel⟩
  exact ⟨r, hr, hl, generate_references hr⟩

end Schemata
