import Schemata.Proofs.Generation.Kinds

namespace Schemata

variable {α β γ : Type}

def Field.outline (f : Field) : Field := { f with resolver := none }

def ObjectType.outline (o : ObjectType) : ObjectType := { o with fields := o.fields.mapValues fun _ => Field.outline }

def InterfaceType.outline (i : InterfaceType) : InterfaceType := { i with typeResolver := none }

def UnionType.outline (u : UnionType) : UnionType := { u with typeResolver := none }

def ScalarType.outline (s : ScalarType) : ScalarType := { s with implementation := .identity }

def EnumValue.outline (v : EnumValue) : EnumValue := { v with value := .string v.name }

def EnumType.outline (e : EnumType) : EnumType := { e with values := e.values.mapValues fun _ => EnumValue.outline }

def Registry.outline (r : Registry) : Registry where
  objects := r.objects.mapValues fun _ => ObjectType.outline
  interfaces := r.interfaces.mapValues fun _ => InterfaceType.outline
  unions := r.unions.mapValues fun _ => UnionType.outline
  scalars := r.scalars.mapValues fun _ => ScalarType.outline
  enums := r.enums.mapValues fun _ => EnumType.outline
  inputObjects := r.inputObjects

def Extension.outline (e : Extension) : Extension := { e with fields := e.fields.mapValues fun _ => Field.outline }

def Contribution.outline : Contribution → Contribution
  | object t => .object t.outline
  | interface t => .interface t.outline
  | union t => .union t.outline
  | scalar t => .scalar t.outline
  | enum t => .enum t.outline
  | inputObject t => .inputObject t
  | extension e => .extension e.outline

theorem collected_mapValues (name : α → String) (value : List Comment → α → β) (f : β → γ)
    (members : List (Member α)) :
    (collected name value members).mapValues (fun _ => f) =
      collected name (fun run a => f (value run a)) members := by
  have written := OrderedMap.mapValues_foldl_insert .empty (fun _ => f)
    ((withRuns members).map fun p => (name p.2, value p.1 p.2))
  rw [List.map_map] at written
  exact written

namespace Context

variable (s : Scope) (m : Implementations)

theorem fieldOf_outline (resolver resolver' : FieldDefinition → Option BoundFieldResolver) (run : List Comment)
    (f : FieldDefinition) (hr : resolver' f = none) :
    ((Context.mk s m).fieldOf resolver run f).outline = (Context.mk s .empty).fieldOf resolver' run f := by
  rw [fieldOf_congr (n := .empty) fun _ => rfl]
  simp only [Field.outline, fieldOf, hr]

theorem objectFieldsOf_outline (type : String) (members : List (Member FieldDefinition)) :
    ((Context.mk s m).objectFieldsOf type members).mapValues (fun _ => Field.outline) =
      (Context.mk s .empty).objectFieldsOf type members := by
  have field : (fun run f => ((Context.mk s m).fieldOf ((Context.mk s m).resolverOf type) run f).outline) =
      (Context.mk s .empty).fieldOf ((Context.mk s .empty).resolverOf type) := by
    funext run f
    exact fieldOf_outline s m _ _ run f rfl
  rw [objectFieldsOf, collected_mapValues, field]
  rfl

theorem enumValuesOf_outline (enum : String) (members : List (Member String)) :
    ((Context.mk s m).enumValuesOf enum members).mapValues (fun _ => EnumValue.outline) =
      (Context.mk s .empty).enumValuesOf enum members :=
  collected_mapValues id _ EnumValue.outline members

theorem contributionOf_outline (run : List Comment) (t : TypeDefinition) :
    ((Context.mk s m).contributionOf run t).outline = (Context.mk s .empty).contributionOf run t := by
  cases t with
  | object o => simp only [contributionOf, Contribution.outline, objectOf, ObjectType.outline, objectFieldsOf_outline]
  | interface i =>
    simp only [contributionOf, Contribution.outline, interfaceOf, InterfaceType.outline]
    rw [interfaceFieldsOf_congr (n := .empty) fun _ => rfl]
    rfl
  | union u => rfl
  | scalar c => rfl
  | enum e => simp only [contributionOf, Contribution.outline, enumOf, EnumType.outline, enumValuesOf_outline]
  | inputObject i =>
    simp only [contributionOf, Contribution.outline, inputObjectOf]
    rw [inputValuesOf_congr (n := .empty) fun _ => rfl]
  | extension o =>
    simp only [contributionOf, Contribution.outline, extensionOf, Extension.outline, objectFieldsOf_outline]

end Context

theorem ObjectType.merge_outline (o : ObjectType) (e : Extension) :
    (o.merge e).outline = o.outline.merge e.outline := by
  have fields := OrderedMap.mapValues_foldl_insert o.fields (fun _ => Field.outline) e.fields.entries
  simp only [outline, merge, fields]
  rfl

theorem ObjectType.foldl_merge_outline (o : ObjectType) (es : List Extension) :
    (es.foldl merge o).outline = (es.map Extension.outline).foldl merge o.outline := by
  induction es generalizing o with
  | nil => rfl
  | cons e es ih => rw [List.foldl_cons, ih, merge_outline, List.map_cons, List.foldl_cons]

namespace Registry

theorem add_outline (r : Registry) (c : Contribution) : (r.add c).outline = r.outline.add c.outline := by
  cases c with
  | inputObject t => rfl
  | extension e => rfl
  | _ => simp only [add, outline, Contribution.outline, OrderedMap.mapValues_insert]; rfl

theorem foldl_add_outline (r : Registry) (cs : List Contribution) :
    (cs.foldl add r).outline = (cs.map Contribution.outline).foldl add r.outline := by
  induction cs generalizing r with
  | nil => rfl
  | cons c cs ih => rw [List.foldl_cons, ih, add_outline, List.map_cons, List.foldl_cons]

theorem extended_outline (r : Registry) (es : List Extension) :
    (r.extended es).outline = r.outline.extended (es.map Extension.outline) := by
  have objects : ((r.objects.mapValues fun key o => (es.filter fun e => e.typeName = key).foldl .merge o).mapValues
      fun _ => ObjectType.outline) = (r.objects.mapValues fun _ => ObjectType.outline).mapValues fun key o =>
        ((es.map Extension.outline).filter fun e => e.typeName = key).foldl .merge o := by
    apply OrderedMap.eq_of_entries
    simp only [OrderedMap.mapValues_entries, List.map_map]
    apply List.map_congr_left
    intro e he
    simp only [Function.comp_apply, ObjectType.foldl_merge_outline, List.filter_map]
    rfl
  simp only [extended, outline, objects]

end Registry

theorem Document.registry_outline (m : Implementations) (d : Document) :
    (d.registry m).outline = d.registry .empty := by
  have extensions : (d.extensions.map (d.context m).extensionOf).map Extension.outline =
      d.extensions.map (d.context .empty).extensionOf := by
    rw [List.map_map]
    apply List.map_congr_left
    intro o ho
    exact Contribution.extension.inj (Context.contributionOf_outline d.scope m [] (.extension o))
  have contributions : (d.contributions m).map Contribution.outline = d.contributions .empty := by
    rw [Document.contributions, List.map_map]
    apply List.map_congr_left
    intro p hp
    exact Context.contributionOf_outline d.scope m p.1 p.2
  have base : (d.base m).outline = d.base .empty := by
    rw [Document.base, Registry.foldl_add_outline, contributions]
    rfl
  rw [Document.registry, Registry.extended_outline, base, extensions]
  rfl

end Schemata
