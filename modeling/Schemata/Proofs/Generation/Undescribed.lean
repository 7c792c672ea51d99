import Schemata.Proofs.Generation.IdleComments

namespace Schemata

variable {α β : Type}

def uncommented (f : α → α) (members : List (Member α)) : List (Member α) := (items members).map fun a => .item (f a)

def FieldDefinition.uncommented (f : FieldDefinition) : FieldDefinition :=
  { f with arguments := f.arguments.map (Schemata.uncommented id) }

def TypeDefinition.uncommented : TypeDefinition → TypeDefinition
  | object o => object { o with fields := Schemata.uncommented FieldDefinition.uncommented o.fields }
  | interface i => interface { i with fields := Schemata.uncommented FieldDefinition.uncommented i.fields }
  | union u => union u
  | scalar s => scalar s
  | enum e => enum { e with values := Schemata.uncommented id e.values }
  | inputObject i => inputObject { i with fields := Schemata.uncommented id i.fields }
  | extension o => extension { o with fields := Schemata.uncommented FieldDefinition.uncommented o.fields }

def Document.withoutComments (d : Document) : Document := ⟨uncommented TypeDefinition.uncommented d.definitions⟩

def InputValue.undescribed (v : InputValue) : InputValue := { v with description := none }

def Field.undescribed (f : Field) : Field where
  name := f.name
  description := none
  type := f.type
  arguments := f.arguments.map fun arguments => arguments.mapValues fun _ => InputValue.undescribed
  resolver := f.resolver

def ObjectType.undescribed (o : ObjectType) : ObjectType :=
  { o with description := none, fields := o.fields.mapValues fun _ => Field.undescribed }

def InterfaceType.undescribed (i : InterfaceType) : InterfaceType :=
  { i with description := none, fields := i.fields.mapValues fun _ => Field.undescribed }

def UnionType.undescribed (u : UnionType) : UnionType := { u with description := none }

def ScalarType.undescribed (s : ScalarType) : ScalarType := { s with description := none }

def EnumValue.undescribed (v : EnumValue) : EnumValue := { v with description := none }

def EnumType.undescribed (e : EnumType) : EnumType :=
  { e with description := none, values := e.values.mapValues fun _ => EnumValue.undescribed }

def InputObjectType.undescribed (i : InputObjectType) : InputObjectType :=
  { i with description := none, fields := i.fields.mapValues fun _ => InputValue.undescribed }

def Registry.undescribed (r : Registry) : Registry where
  objects := r.objects.mapValues fun _ => ObjectType.undescribed
  interfaces := r.interfaces.mapValues fun _ => InterfaceType.undescribed
  unions := r.unions.mapValues fun _ => UnionType.undescribed
  scalars := r.scalars.mapValues fun _ => ScalarType.undescribed
  enums := r.enums.mapValues fun _ => EnumType.undescribed
  inputObjects := r.inputObjects.mapValues fun _ => InputObjectType.undescribed

def Extension.undescribed (e : Extension) : Extension :=
  { e with fields := e.fields.mapValues fun _ => Field.undescribed }

def Contribution.undescribed : Contribution → Contribution
  | object t => .object t.undescribed
  | interface t => .interface t.undescribed
  | union t => .union t.undescribed
  | scalar t => .scalar t.undescribed
  | enum t => .enum t.undescribed
  | inputObject t => .inputObject t.undescribed
  | extension e => .extension e.undescribed

/-- A step that is handed an undescribed item gives what it gives for a described one, less the descriptions. -/
def Ignores (f : α → α) (g : β → β) (build : Option String → α → Documenting β) : Prop :=
  ∀ description a, build none (f a) .empty = (build description a .empty).map fun r => (g r.1, r.2)

theorem withRuns_uncommented (f : α → α) (members : List (Member α)) :
    withRuns (uncommented f members) = (withRuns members).map fun p => ([], f p.2) := by
  have runs (as : List α) : withRuns (as.map fun a => .item (f a)) = as.map fun a => (([] : List Comment), f a) := by
    induction as with
    | nil => rfl
    | cons a as ih => exact congrArg (([], f a) :: ·) ih
  rw [uncommented, runs, ← withRuns_items, List.map_map]
  rfl

theorem collect_uncommented {name : α → String} {duplicate : String → GenerateError}
    {build : Option String → α → Documenting β} (f : α → α) {g : β → β} (hn : ∀ a, name (f a) = name a)
    (hb : Ignores f g build) (hd : ∀ description a, Drains (build description a .empty)) (members : List (Member α)) :
    collect name duplicate build (uncommented f members) .empty =
      (collect name duplicate build members .empty).map fun r => (r.1.mapValues fun _ => g, r.2) := by
  have step (m : OrderedMap β) (p : List Comment × α) :
      collectStep name duplicate build (m.mapValues fun _ => g) ([], f p.2) =
        (collectStep name duplicate build m p).map fun m => m.mapValues fun _ => g := by
    rw [collectStep, collectStep, hn, OrderedMap.mapValues_contains]
    split
    · rfl
    · apply Except.bind_alike (hb (describe p.1) p.2)
      rintro ⟨b, lines⟩
      exact congrArg Except.ok (OrderedMap.mapValues_insert m (fun _ => g) (name p.2) b).symm
  have runs := withRuns_uncommented f members
  rw [withRuns, withRuns] at runs
  rw [collect, ← waiting_nil, collectFrom_eq_foldlM fun a _ run => hd (describe run) a,
    collectFrom_eq_foldlM fun a _ run => hd (describe run) a, runs]
  exact Except.bind_alike (Except.foldlM_alike step _ .empty) fun m => rfl

namespace Context

variable (c : Context)

theorem inputValue_ignores : Ignores id InputValue.undescribed c.inputValue :=
  fun _ _ => Except.bind_mapped fun _ => rfl

theorem inputValues_uncommented (duplicate : String → GenerateError) (members : List (Member InputValueDefinition)) :
    c.inputValues duplicate (uncommented id members) .empty =
      (c.inputValues duplicate members .empty).map fun r => (r.1.mapValues fun _ => InputValue.undescribed, r.2) :=
  collect_uncommented id (fun _ => rfl) c.inputValue_ignores c.inputValue_drains members

theorem arguments_uncommented (type : String) (f : FieldDefinition) :
    c.arguments type f.uncommented .empty =
      (c.arguments type f .empty).map fun r =>
        (r.1.map fun arguments => arguments.mapValues fun _ => InputValue.undescribed, r.2) := by
  rw [arguments, arguments, FieldDefinition.uncommented]
  cases f.arguments with
  | none => rfl
  | some members => exact Except.bind_alike (c.inputValues_uncommented _ members) fun r => rfl

theorem fieldResolver_uncommented (type : String) (f : FieldDefinition) :
    c.fieldResolver type f.uncommented = c.fieldResolver type f := by
  have h : f.uncommented.isCalculated = f.isCalculated := Option.isSome_map
  rw [fieldResolver, fieldResolver, h]
  rfl

theorem interfaceField_ignores (type : String) :
    Ignores FieldDefinition.uncommented Field.undescribed (c.interfaceField type) := by
  intro description f
  apply Except.bind_alike (c.arguments_uncommented type f)
  intro r
  exact Except.bind_mapped fun _ => rfl

theorem objectField_ignores (type : String) :
    Ignores FieldDefinition.uncommented Field.undescribed (c.objectField type) := by
  intro description f
  apply Except.bind_alike (c.arguments_uncommented type f)
  intro r
  rw [fieldResolver_uncommented]
  exact Except.bind_mapped fun _ => Except.bind_mapped fun _ => rfl

theorem enumValue_ignores (enum : String) : Ignores id EnumValue.undescribed (c.enumValue enum) :=
  fun _ _ => Except.bind_mapped fun _ => rfl

theorem interfaceFields_uncommented (type : String) (members : List (Member FieldDefinition)) :
    c.interfaceFields type (uncommented FieldDefinition.uncommented members) .empty =
      (c.interfaceFields type members .empty).map fun r => (r.1.mapValues fun _ => Field.undescribed, r.2) :=
  collect_uncommented FieldDefinition.uncommented (fun _ => rfl) (c.interfaceField_ignores type)
    (c.interfaceField_drains type) members

theorem objectFields_uncommented (type : String) (members : List (Member FieldDefinition)) :
    c.objectFields type (uncommented FieldDefinition.uncommented members) .empty =
      (c.objectFields type members .empty).map fun r => (r.1.mapValues fun _ => Field.undescribed, r.2) :=
  collect_uncommented FieldDefinition.uncommented (fun _ => rfl) (c.objectField_ignores type)
    (c.objectField_drains type) members

theorem enumValues_uncommented (enum : String) (members : List (Member String)) :
    c.enumValues enum (uncommented id members) .empty =
      (c.enumValues enum members .empty).map fun r => (r.1.mapValues fun _ => EnumValue.undescribed, r.2) :=
  collect_uncommented id (fun _ => rfl) (c.enumValue_ignores enum) (c.enumValue_drains enum) members

theorem contribution_uncommented (t : TypeDefinition) (lines : DocLines) :
    c.contribution t.uncommented .empty = (c.contribution t lines).map fun r => (r.1.undescribed, r.2) := by
  cases t with
  | object o =>
    exact Except.bind_mapped fun _ => Except.bind_alike (c.objectFields_uncommented o.name o.fields) fun _ => rfl
  | interface i => exact Except.bind_alike (c.interfaceFields_uncommented i.name i.fields) fun _ => rfl
  | union u => exact Except.bind_mapped fun _ => rfl
  | scalar s => rfl
  | enum e => exact Except.bind_alike (c.enumValues_uncommented e.name e.values) fun _ => rfl
  | inputObject i => exact Except.bind_alike (c.inputValues_uncommented _ i.fields) fun _ => rfl
  | extension o =>
    exact Except.bind_mapped fun _ => Except.bind_mapped fun _ =>
      Except.bind_alike (c.objectFields_uncommented o.name o.fields) fun _ => rfl

theorem contributions_uncommented (members : List (Member TypeDefinition)) :
    c.contributions (uncommented TypeDefinition.uncommented members) .empty =
      (c.contributions members .empty).map fun r => (r.1.map Contribution.undescribed, r.2) := by
  have step (p : List Comment × TypeDefinition) :
      c.contributionStep ([], p.2.uncommented) = (c.contributionStep p).map Contribution.undescribed :=
    Except.bind_alike (c.contribution_uncommented p.2 (waiting p.1)) fun _ => rfl
  have runs := withRuns_uncommented TypeDefinition.uncommented members
  rw [withRuns, withRuns] at runs
  rw [← waiting_nil, c.contributions_eq_mapM fun t _ run => c.contribution_drains t _,
    c.contributions_eq_mapM fun t _ run => c.contribution_drains t _, runs]
  exact Except.bind_alike (Except.mapM_alike step _) fun _ => rfl

end Context

theorem Registry.add_undescribed (r : Registry) (c : Contribution) :
    r.undescribed.add c.undescribed = (r.add c).undescribed := by
  cases c with
  | extension e => rfl
  | _ => simp only [add, undescribed, Contribution.undescribed, OrderedMap.mapValues_insert]; rfl

theorem Registry.foldl_add_undescribed (r : Registry) (cs : List Contribution) :
    (cs.map Contribution.undescribed).foldl add r.undescribed = (cs.foldl add r).undescribed := by
  induction cs generalizing r with
  | nil => rfl
  | cons c cs ih => rw [List.map_cons, List.foldl_cons, List.foldl_cons, add_undescribed, ih]

theorem ObjectType.extend_undescribed (o : ObjectType) (e : Extension) :
    o.undescribed.extend e.undescribed = (o.extend e).map undescribed := by
  let added (fields : OrderedMap Field) (f : String × Field) : Generated (OrderedMap Field) := do
    if fields.contains f.1 then throw (GenerateError.duplicateField e.typeName f.1)
    return fields.insert f.1 f.2
  have step (fields : OrderedMap Field) (f : String × Field) :
      added (fields.mapValues fun _ => Field.undescribed) (f.1, f.2.undescribed) =
        (added fields f).map fun fields => fields.mapValues fun _ => Field.undescribed := by
    simp only [added, OrderedMap.mapValues_contains]
    split
    · rfl
    · exact congrArg Except.ok (OrderedMap.mapValues_insert fields (fun _ => Field.undescribed) f.1 f.2).symm
  exact Except.bind_alike (Except.foldlM_alike step e.fields.entries o.fields) fun fields => rfl

theorem Registry.extend_undescribed (r : Registry) (e : Extension) :
    r.undescribed.extend e.undescribed = (r.extend e).map undescribed := by
  have found : r.undescribed.objects.get? e.undescribed.typeName =
      (r.objects.get? e.typeName).map ObjectType.undescribed := OrderedMap.mapValues_get?_eq _ _ _
  rw [extend, extend, found]
  cases r.objects.get? e.typeName with
  | none => rfl
  | some o =>
    apply Except.bind_alike (o.extend_undescribed e)
    intro o
    have written := OrderedMap.mapValues_insert r.objects (fun _ => ObjectType.undescribed) e.typeName o
    simp only [undescribed, Except.map, pure, Except.pure, written]
    rfl

theorem extensions_undescribed (cs : List Contribution) :
    (cs.map Contribution.undescribed).filterMap Contribution.extension? =
      (cs.filterMap Contribution.extension?).map Extension.undescribed := by
  rw [List.filterMap_map, List.map_filterMap]
  apply List.filterMap_congr
  intro c _
  cases c <;> rfl

theorem ofDocument_withoutComments (d : Document) : Scope.ofDocument d.withoutComments = Scope.ofDocument d := by
  have declared (s : Scope) (t : TypeDefinition) : s.declare t.uncommented = s.declare t := by
    cases t <;> rfl
  have types : d.withoutComments.typeDefinitions = d.typeDefinitions.map TypeDefinition.uncommented := by
    rw [Document.typeDefinitions, Document.typeDefinitions, ← withRuns_items, ← withRuns_items,
      Document.withoutComments, withRuns_uncommented, List.map_map, List.map_map]
    rfl
  rw [Scope.ofDocument, types, List.foldlM_map]
  simp only [declared]
  rfl

theorem generate_undescribed (m : Implementations) (d : Document) :
    generate m d.withoutComments = (generate m d).map Registry.undescribed := by
  rw [generate, generate, ofDocument_withoutComments]
  apply Except.bind_mapped
  intro scope
  apply Except.bind_alike (Context.contributions_uncommented ⟨scope, m⟩ d.definitions)
  intro r
  have built : (r.1.map Contribution.undescribed).foldl Registry.add {} = (r.1.foldl Registry.add {}).undescribed :=
    Registry.foldl_add_undescribed {} r.1
  dsimp only
  rw [extensions_undescribed, built]
  exact Except.foldlM_alike Registry.extend_undescribed _ _

/-- With and without its comments a document gives one and the same error, or registries that differ in nothing but the
descriptions, of which the second has none. -/
theorem generate_withoutComments (m : Implementations) (d : Document) :
    (∃ e, generate m d = .error e ∧ generate m d.withoutComments = .error e) ∨
      ∃ r, generate m d = .ok r ∧ generate m d.withoutComments = .ok r.undescribed := by
  rw [generate_undescribed]
  cases generate m d with
  | error e => exact .inl ⟨e, rfl, rfl⟩
  | ok r => exact .inr ⟨r, rfl, rfl⟩

theorem generate_withoutComments_described :
    let admins : InputValueDefinition := ⟨"admins", .named "Boolean", none⟩
    let count (arguments : List (Member InputValueDefinition)) : FieldDefinition :=
      ⟨"count", some arguments, .nonNull (.named "Int")⟩
    let query (fields : List (Member FieldDefinition)) : TypeDefinition := .interface ⟨"Query", fields⟩
    let role (values : List (Member String)) : TypeDefinition := .enum ⟨"Role", values⟩
    let d : Document := ⟨[
      .comment ⟨"# The start."⟩, .item (query [
        .comment ⟨"# How many."⟩, .item (count [.comment ⟨"# Of these."⟩, .item admins])]),
      .item (role [.comment ⟨"# All rights."⟩, .item "ADMIN"]), .comment ⟨"# The end."⟩]⟩
    let d' : Document := ⟨[.item (query [.item (count [.item admins])]), .item (role [.item "ADMIN"])]⟩
    let descriptions (r : Registry) : List (Option String) :=
      (r.interfaces.values.flatMap fun t => t.description :: t.fields.values.flatMap fun f =>
        f.description :: (f.arguments.getD .empty).values.map InputValue.description) ++
      r.enums.values.flatMap fun t => t.description :: t.values.values.map EnumValue.description
    ∃ r, generate .empty d = .ok r ∧ generate .empty d' = .ok r.undescribed ∧
      descriptions r = [some "The start.", some "How many.", some "Of these.", none, some "All rights."] ∧
      descriptions r.undescribed = [none, none, none, none, none] := by
  intro admins count query role d d' descriptions
  have removed : d.withoutComments = d' := rfl
  obtain ⟨r, hr, hd⟩ : ∃ r, generate .empty d = .ok r ∧
      descriptions r = [some "The start.", some "How many.", some "Of these.", none, some "All rights."] ∧
      descriptions r.undescribed = [none, none, none, none, none] :=
    ⟨_, rfl, by decide +kernel, by decide +kernel⟩
  obtain ⟨e, he, -⟩ | ⟨r', hr', hu⟩ := generate_withoutComments .empty d
  · exact absurd (hr.symm.trans he) nofun
  · obtain rfl : r = r' := Except.ok.inj (hr.symm.trans hr')
    exact ⟨r, hr, removed ▸ hu, hd⟩

end Schemata
