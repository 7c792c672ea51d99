import Schemata.Proofs.Generation.Meaning

namespace Schemata

namespace Context

variable {c : Context} {d : Document} {fault : GenerateError → Prop}

theorem resolve_decides {position : TypePosition} {t : TypeRef}
    (hf : ¬(∃ kind, c.scope.kind? t.innermostName = some kind ∧ (position = .output ∨ kind.isInput)) →
      fault (.undefinedType t.innermostName)) :
    (c.scope.resolve position t).Decides
      (∃ kind, c.scope.kind? t.innermostName = some kind ∧ (position = .output ∨ kind.isInput))
      (c.annotationOf t) fault := by
  induction t with
  | named name =>
    rw [Scope.resolve]
    split
    · next kind hk =>
      simp only [TypeRef.innermostName, hk] at hf ⊢
      split
      · next hp => exact ⟨⟨kind, rfl, hp⟩, by simp [annotationOf, hk]⟩
      · next hp =>
        have hn : ¬∃ k, some kind = some k ∧ (position = .output ∨ k.isInput) := by
          rintro ⟨k, hk, h⟩
          exact hp (Option.some.inj hk ▸ h)
        exact .error hn (hf hn)
    · next hk =>
      simp only [TypeRef.innermostName, hk] at hf ⊢
      exact .error (by simp) (hf (by simp))
  | list inner ih => exact (ih hf).map Annotation.list
  | nonNull inner ih => exact (ih hf).map Annotation.nonNull

theorem resolve_output (hs : c.scope.Agrees d) {t : TypeRef}
    (hf : ¬d.Knows t.innermostName → fault (.undefinedType t.innermostName)) :
    (c.scope.resolve .output t).Decides (d.Knows t.innermostName) (c.annotationOf t) fault := by
  have known : d.Knows t.innermostName ↔ ∃ kind, c.scope.kind? t.innermostName = some kind ∧
      (TypePosition.output = .output ∨ kind.isInput) := by
    simp [hs.knows_iff]
  rw [known] at hf ⊢
  exact resolve_decides hf

theorem resolve_input (hs : c.scope.Agrees d) {t : TypeRef}
    (hf : (d.Knows t.innermostName → d.Defines t.innermostName .object) →
      fault (.undefinedType t.innermostName)) :
    (c.scope.resolve .input t).Decides
      (d.Knows t.innermostName ∧ ¬d.Defines t.innermostName .object) (c.annotationOf t) fault := by
  have input : d.Knows t.innermostName ∧ ¬d.Defines t.innermostName .object ↔
      ∃ kind, c.scope.kind? t.innermostName = some kind ∧
        (TypePosition.input = .output ∨ kind.isInput) := by
    rw [hs.knows_iff, ← hs.defines_iff rfl]
    constructor
    · rintro ⟨⟨kind, hk⟩, ho⟩
      refine ⟨kind, hk, .inr ?_⟩
      rw [hk, Option.some.injEq] at ho
      simpa [Kind.isInput] using ho
    · rintro ⟨kind, hk, hp | hi⟩
      · cases hp
      · refine ⟨⟨kind, hk⟩, ?_⟩
        rw [hk, Option.some.injEq]
        simpa [Kind.isInput] using hi
  rw [input]
  exact resolve_decides fun hn => hf fun hk => by_contra fun ho => hn (input.1 ⟨hk, ho⟩)

end Context

namespace Context

variable {c : Context} {d : Document}

theorem inputValue_decides (hs : c.scope.Agrees d) {v : InputValueDefinition} (hv : d.HasInput v)
    (run : List Comment) :
    (c.inputValue (describe run) v .empty).Decides (v.Valid d) (c.inputValueOf run v, .empty)
      (GenerateError.Holds c.implementations d) := by
  have type : (c.scope.resolve .input v.type).Decides _ _ (GenerateError.Holds c.implementations d) :=
    resolve_input hs fun h => Or.inr ⟨⟨v, hv, rfl⟩, h⟩
  exact type.map fun type =>
    ((⟨v.name, describe run, type, v.defaultValue.map Value.runtimeValue⟩ : InputValue), DocLines.empty)

theorem inputValues_decides (hs : c.scope.Agrees d) {duplicate : String → GenerateError}
    {members : List (Member InputValueDefinition)} (hv : ∀ v ∈ items members, d.HasInput v)
    (hd : ∀ name, List.Duplicate name ((items members).map InputValueDefinition.name) →
      (duplicate name).Holds c.implementations d) :
    (c.inputValues duplicate members .empty).Decides
      (((items members).map InputValueDefinition.name).Nodup ∧ ∀ v ∈ items members, v.Valid d)
      (c.inputValuesOf members, .empty) (GenerateError.Holds c.implementations d) :=
  collect_decides (fun v hm => inputValue_decides hs (hv v hm)) hd

theorem arguments_decides (hs : c.scope.Agrees d) {type : String} {f : FieldDefinition}
    (hf : d.HasField type f) :
    (c.arguments type f .empty).Decides
      ((f.inputs.map InputValueDefinition.name).Nodup ∧ ∀ v ∈ f.inputs, v.Valid d)
      (f.arguments.map c.inputValuesOf, .empty) (GenerateError.Holds c.implementations d) := by
  rw [arguments, FieldDefinition.inputs]
  cases ha : f.arguments with
  | none => exact (Except.Decides.ok _).iff (by simp [items])
  | some members =>
    have hi : f.inputs = items members := by rw [FieldDefinition.inputs, ha, Option.getD_some]
    have all : (c.inputValues (.duplicateArgument type f.name) members .empty).Decides _ _ _ :=
      inputValues_decides hs (fun v hv => .inl ⟨type, f, hf, hi ▸ hv⟩) fun name hd => ⟨f, hf, rfl, hi ▸ hd⟩
    exact all.map fun r => (some r.1, r.2)

theorem fieldResolver_decides {type : String} {f : FieldDefinition} (hf : f ∈ d.objectFields type) :
    (c.fieldResolver type f).Decides
      (f.isCalculated → (c.implementations.fieldResolver? type f.name).isSome) (c.resolverOf type f)
      (GenerateError.Holds c.implementations d) := by
  rw [fieldResolver, resolverOf]
  cases hr : c.implementations.fieldResolver? type f.name with
  | some resolver => exact ⟨fun _ => rfl, rfl⟩
  | none =>
    by_cases hc : f.isCalculated
    · simp only [hc, if_true]
      exact .error (fun h => Bool.false_ne_true (h trivial)) ⟨⟨f, hf, rfl, hc⟩, hr⟩
    · simp only [hc]
      exact ⟨nofun, rfl⟩

theorem fieldType_decides (hs : c.scope.Agrees d) {type : String} {f : FieldDefinition}
    (hf : d.HasField type f) :
    (c.scope.resolve .output f.type).Decides (d.Knows f.type.innermostName) (c.annotationOf f.type)
      (GenerateError.Holds c.implementations d) :=
  resolve_output hs fun h => Or.inl ⟨.inl ⟨type, f, hf, rfl⟩, h⟩

theorem interfaceField_decides (hs : c.scope.Agrees d) {type : String} {f : FieldDefinition}
    (hf : d.HasField type f) (run : List Comment) :
    (c.interfaceField type (describe run) f .empty).Decides (f.Valid d)
      (c.fieldOf (fun _ => none) run f, .empty) (GenerateError.Holds c.implementations d) := by
  let field (type : Annotation) : Field := ⟨f.name, describe run, type, f.arguments.map c.inputValuesOf, none⟩
  have typed : (c.scope.resolve .output f.type >>= fun type => pure (field type, DocLines.empty)).Decides
      _ _ (GenerateError.Holds c.implementations d) := (fieldType_decides hs hf).map _
  refine ((arguments_decides hs hf).bind fun _ => typed).iff ?_
  exact ⟨fun ⟨⟨hn, hi⟩, ht⟩ => ⟨ht, hn, hi⟩, fun ⟨ht, hn, hi⟩ => ⟨⟨hn, hi⟩, ht⟩⟩

theorem objectField_decides (hs : c.scope.Agrees d) {type : String} {f : FieldDefinition}
    (hf : f ∈ d.objectFields type) (run : List Comment) :
    (c.objectField type (describe run) f .empty).Decides
      (f.Valid d ∧ (f.isCalculated → (c.implementations.fieldResolver? type f.name).isSome))
      (c.fieldOf (c.resolverOf type) run f, .empty) (GenerateError.Holds c.implementations d) := by
  let field (resolver : Option BoundFieldResolver) (type : Annotation) : Field :=
    ⟨f.name, describe run, type, f.arguments.map c.inputValuesOf, resolver⟩
  have typed (resolver : Option BoundFieldResolver) :
      (c.scope.resolve .output f.type >>= fun type => pure (field resolver type, DocLines.empty)).Decides
      _ _ (GenerateError.Holds c.implementations d) := (fieldType_decides hs (.inl hf)).map _
  have resolved : (c.fieldResolver type f >>= fun resolver =>
      c.scope.resolve .output f.type >>= fun type => pure (field resolver type, DocLines.empty)).Decides
      _ _ (GenerateError.Holds c.implementations d) := (fieldResolver_decides hf).bind fun _ => typed _
  refine ((arguments_decides hs (.inl hf)).bind fun _ => resolved).iff ?_
  exact ⟨fun ⟨⟨hn, hi⟩, hr, ht⟩ => ⟨⟨ht, hn, hi⟩, hr⟩, fun ⟨⟨ht, hn, hi⟩, hr⟩ => ⟨⟨hn, hi⟩, hr, ht⟩⟩

theorem interfaceFields_decides (hs : c.scope.Agrees d) {i : InterfaceDefinition}
    (hi : .interface i ∈ d.typeDefinitions) :
    (c.interfaceFields i.name i.fields .empty).Decides (i.Valid d) (c.interfaceFieldsOf i.fields, .empty)
      (GenerateError.Holds c.implementations d) := by
  have all : (c.interfaceFields i.name i.fields .empty).Decides _ _ _ :=
    collect_decides (fun f hf => interfaceField_decides hs (.inr ⟨i, hi, rfl, hf⟩))
      fun name hd => Or.inr (.inl ⟨i, hi, rfl, hd⟩)
  exact all.iff ⟨fun ⟨hn, hv⟩ => ⟨hn, hv⟩, fun ⟨hn, hv⟩ => ⟨hn, hv⟩⟩

theorem objectFields_decides (hs : c.scope.Agrees d) {o : ObjectDefinition} (ho : o ∈ d.objectDefinitions) :
    (c.objectFields o.name o.fields .empty).Decides
      (((items o.fields).map FieldDefinition.name).Nodup ∧ ∀ f ∈ items o.fields, f.Valid d ∧
        (f.isCalculated → (c.implementations.fieldResolver? o.name f.name).isSome))
      (c.objectFieldsOf o.name o.fields, .empty) (GenerateError.Holds c.implementations d) :=
  collect_decides (fun _ hf => objectField_decides hs (mem_objectFields ho hf))
    fun _ hd => Or.inl (hd.mono_sublist ((items_sublist_objectFields ho).map _))

theorem interfaces_decides (hs : c.scope.Agrees d) {o : ObjectDefinition} (ho : o ∈ d.objectDefinitions) :
    (c.interfaces o.interfaces).Decides (∀ name ∈ o.interfaces, d.Defines name .interface)
      (NamedRef.interfaces o.interfaces) (GenerateError.Holds c.implementations d) := by
  have each : ∀ name ∈ o.interfaces, (c.checkInterface name).Decides (d.Defines name .interface) ()
      (GenerateError.Holds c.implementations d) := by
    intro name hn
    rw [← hs.defines_iff rfl, checkInterface]
    split
    · next h => exact ⟨h, rfl⟩
    · next h => exact .error h ⟨⟨o, ho, hn⟩, mt (hs.defines_iff rfl).2 h⟩
  exact (Except.Decides.forM each).map fun _ => NamedRef.interfaces o.interfaces

theorem runtimeValue_decides {e : EnumDefinition} (he : .enum e ∈ d.typeDefinitions) {name : String}
    (hn : name ∈ items e.values) :
    (c.runtimeValue e.name name).Decides
      (∀ values, c.implementations.enumValues? e.name = some values → values.contains name)
      (c.valueOf e.name name) (GenerateError.Holds c.implementations d) := by
  rw [runtimeValue, valueOf]
  cases hv : c.implementations.enumValues? e.name with
  | none => exact ⟨nofun, rfl⟩
  | some values =>
    dsimp only
    cases hj : values.get? name with
    | some j => exact ⟨fun _ h => Option.some.inj h ▸ by simp [OrderedMap.contains, hj], rfl⟩
    | none =>
      have hc : ¬values.contains name := by simp [OrderedMap.contains, hj]
      exact .error (fun h => hc (h values rfl))
        ⟨⟨e, he, rfl, hn⟩, values, hv, mt OrderedMap.contains_iff.2 hc⟩

theorem enumValues_decides {e : EnumDefinition} (he : .enum e ∈ d.typeDefinitions) :
    (c.enumValues e.name e.values .empty).Decides (e.Valid c.implementations)
      (c.enumValuesOf e.name e.values, .empty) (GenerateError.Holds c.implementations d) := by
  have value : ∀ name ∈ items e.values, ∀ run,
      (c.enumValue e.name (describe run) name .empty).Decides
        (∀ values, c.implementations.enumValues? e.name = some values → values.contains name)
        (c.enumValueOf e.name run name, .empty) (GenerateError.Holds c.implementations d) :=
    fun name hn run => (runtimeValue_decides he hn).map fun value =>
      ((⟨name, describe run, value⟩ : EnumValue), DocLines.empty)
  have all : (c.enumValues e.name e.values .empty).Decides _ _ _ :=
    collect_decides value fun name hd => ⟨e, he, rfl, List.map_id (items e.values) ▸ hd⟩
  rw [List.map_id] at all
  exact all.iff ⟨fun ⟨hn, hv⟩ => ⟨hn, fun values h name hm => hv name hm values h⟩,
    fun ⟨hn, hv⟩ => ⟨hn, fun name hm values h => hv values h name hm⟩⟩

theorem checkMember_decides (hs : c.scope.Agrees d) {union name : String} (hm : d.HasMember union name) :
    (c.checkMember union name).Decides (d.Defines name .object) ()
      (GenerateError.Holds c.implementations d) := by
  rw [checkMember, ← hs.defines_iff rfl]
  split
  · next h => exact ⟨h, rfl⟩
  · next kind hne hk =>
    exact .error (fun ho => hne (Option.some.inj (hk.symm.trans ho))) ⟨hm, (hs name kind).1 hk, hne⟩
  · next h => exact .error (by simp [h]) (Or.inl ⟨.inr ⟨union, hm⟩, hs.not_knows h⟩)

theorem unionMembers_decides (hs : c.scope.Agrees d) {u : UnionDefinition} (hu : .union u ∈ d.typeDefinitions) :
    (c.unionMembers u.name u.members).Decides (u.Valid d) (NamedRef.members u.members)
      (GenerateError.Holds c.implementations d) := by
  have step : ∀ name ∈ u.members, ∀ members : OrderedMap NamedRef,
      (name ∈ members.keys → List.Duplicate name ([] ++ u.members.map id)) →
      (do
        c.checkMember u.name name
        if members.contains name then throw (GenerateError.duplicateUnionMember u.name name)
        return members.insert name ⟨name, .object⟩).Decides (name ∉ members.keys ∧ d.Defines name .object)
        (members.insert name ⟨name, .object⟩) (GenerateError.Holds c.implementations d) := by
    intro name hn members hd
    rw [List.map_id, List.nil_append] at hd
    have inserted : (insertNew (.duplicateUnionMember u.name name) name (⟨name, .object⟩ : NamedRef)
        members).Decides _ _ (GenerateError.Holds c.implementations d) :=
      insertNew_decides fun hk => ⟨u, hu, rfl, hd hk⟩
    refine ((checkMember_decides hs ⟨u, hu, rfl, hn⟩).bind fun _ => inserted).iff ?_
    rw [and_true, and_comm]
  have all : (c.unionMembers u.name u.members).Decides _ _ _ := foldlM_insert_decides step
  rw [OrderedMap.empty_keys, List.nil_append, List.map_id'] at all
  exact all.iff ⟨fun ⟨hn, hm⟩ => ⟨hn, hm⟩, fun ⟨hn, hm⟩ => ⟨hn, hm⟩⟩

theorem checkExtended_decides (hs : c.scope.Agrees d) {o : ObjectDefinition}
    (ho : .extension o ∈ d.typeDefinitions) :
    (c.checkExtended o.name).Decides (d.Defines o.name .object) ()
      (GenerateError.Holds c.implementations d) := by
  rw [checkExtended, ← hs.defines_iff rfl]
  split
  · next h => exact ⟨h, rfl⟩
  · next kind hne hk =>
    exact .error (fun ho => hne (Option.some.inj (hk.symm.trans ho)))
      ⟨⟨o, ho, rfl⟩, (hs o.name kind).1 hk, hne⟩
  · next h => exact .error (by simp [h]) ⟨⟨o, ho, rfl⟩, hs.not_knows h⟩

end Context

def TypeDefinition.Distinct : TypeDefinition → Prop
  | object o | extension o => ((items o.fields).map FieldDefinition.name).Nodup
  | _ => True

namespace Context

variable {c : Context} {d : Document}

theorem contribution_decides (hs : c.scope.Agrees d) {t : TypeDefinition} (ht : t ∈ d.typeDefinitions)
    (run : List Comment) :
    (c.contribution t (waiting run)).Decides (t.Distinct ∧ t.Valid c.implementations d)
      (c.contributionOf run t, .empty) (GenerateError.Holds c.implementations d) := by
  cases t with
  | object o =>
    have ho := mem_objectDefinitions.2 (.inl ht)
    refine ((interfaces_decides hs ho).bind fun _ => (objectFields_decides hs ho).map _).iff ?_
    rw [TypeDefinition.Valid, ObjectDefinition.valid_iff]
    exact and_left_comm
  | interface i => exact ((interfaceFields_decides hs ht).map _).iff (and_iff_right trivial).symm
  | union u => exact ((unionMembers_decides hs ht).map _).iff (and_iff_right trivial).symm
  | scalar s => exact ⟨⟨trivial, trivial⟩, rfl⟩
  | enum e => exact ((enumValues_decides ht).map _).iff (and_iff_right trivial).symm
  | inputObject i =>
    have fields : (c.inputValues (.duplicateField i.name) i.fields .empty).Decides _ _ _ :=
      inputValues_decides hs (fun v hv => .inr ⟨i, ht, hv⟩) fun name hd => Or.inr (.inr ⟨i, ht, rfl, hd⟩)
    exact (fields.map _).iff ⟨fun ⟨hn, hv⟩ => ⟨trivial, hn, hv⟩, fun ⟨_, hn, hv⟩ => ⟨hn, hv⟩⟩
  | extension o =>
    have ho := mem_objectDefinitions.2 (.inr ht)
    refine ((checkExtended_decides hs ht).bind fun _ =>
      (interfaces_decides hs ho).bind fun _ => (objectFields_decides hs ho).map _).iff ?_
    rw [TypeDefinition.Valid, ObjectDefinition.valid_iff]
    exact ⟨fun ⟨hd, hi, hn, hf⟩ => ⟨hn, hd, hi, hf⟩, fun ⟨hn, hd, hi, hf⟩ => ⟨hd, hi, hn, hf⟩⟩

def contributionStep (c : Context) (p : List Comment × TypeDefinition) : Generated Contribution := do
  return (← c.contribution p.2 (waiting p.1)).1

theorem contributions_eq_mapM {pending : List Comment} {members : List (Member TypeDefinition)}
    (h : ∀ t ∈ items members, ∀ run, Drains (c.contribution t (waiting run))) :
    c.contributions members (waiting pending) =
      (do return (← (withRunsFrom pending members).mapM c.contributionStep, .empty)) := by
  induction members generalizing pending with
  | nil => rfl
  | cons member members ih =>
    cases member with
    | comment comment =>
      rw [contributions, waiting_push, ih h]
      rfl
    | item t =>
      have hl := h t List.mem_cons_self pending
      rw [contributions, withRunsFrom, List.mapM_cons, contributionStep]
      cases hb : c.contribution t (waiting pending) with
      | error e => rfl
      | ok r =>
        obtain ⟨first, lines⟩ := r
        obtain rfl := hl hb
        change (c.contributions members (waiting []) >>= fun r => pure (first :: r.1, r.2)) = _
        rw [ih fun t' ht => h t' (List.mem_cons_of_mem _ ht)]
        cases hm : (withRunsFrom [] members).mapM c.contributionStep with
        | error e => rfl
        | ok others => rfl

theorem contributions_decides (hs : c.scope.Agrees d) :
    (c.contributions d.definitions .empty).Decides
      (∀ t ∈ d.typeDefinitions, t.Distinct ∧ t.Valid c.implementations d)
      ((withRuns d.definitions).map fun p => c.contributionOf p.1 p.2, .empty)
      (GenerateError.Holds c.implementations d) := by
  have drains : ∀ t ∈ items d.definitions, ∀ run, Drains (c.contribution t (waiting run)) := by
    intro t ht run x lines h
    exact (Prod.mk.inj ((contribution_decides hs ht run).eq_ok_iff.1 h).2).2 ▸ rfl
  have step : ∀ p ∈ withRuns d.definitions, (c.contributionStep p).Decides
      (p.2.Distinct ∧ p.2.Valid c.implementations d) (c.contributionOf p.1 p.2)
      (GenerateError.Holds c.implementations d) := fun p hp =>
    (contribution_decides hs (mem_items_of_mem_withRuns hp) p.1).map Prod.fst
  have all := (Except.Decides.mapM step).map fun cs => (cs, DocLines.empty)
  rw [← waiting_nil, contributions_eq_mapM drains]
  refine all.iff ?_
  rw [Document.typeDefinitions, ← withRuns_items, List.forall_mem_map]

end Context

end Schemata
