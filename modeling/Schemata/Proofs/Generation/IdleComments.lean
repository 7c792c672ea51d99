import Schemata.Proofs.Generation.Deciding
/-!
Comments that document nothing: those at the end of a document, a body or an argument list, and those
before an extension. Generation gives the same without them, be it a registry or an error.
-/

namespace Schemata

variable {α β : Type}

/-- The items of a list, each changed by `f` and with its run; what no item follows is left out. -/
def trim (f : α → α) (members : List (Member α)) : List (Member α) :=
  writeRuns ((withRuns members).map fun p => (p.1, f p.2))

def FieldDefinition.trimmed (f : FieldDefinition) : FieldDefinition := { f with arguments := f.arguments.map (trim id) }

def TypeDefinition.trimmed : TypeDefinition → TypeDefinition
  | object o => object { o with fields := trim FieldDefinition.trimmed o.fields }
  | interface i => interface { i with fields := trim FieldDefinition.trimmed i.fields }
  | union u => union u
  | scalar s => scalar s
  | enum e => enum { e with values := trim id e.values }
  | inputObject i => inputObject { i with fields := trim id i.fields }
  | extension o => extension { o with fields := trim FieldDefinition.trimmed o.fields }

def documentingRun (p : List Comment × TypeDefinition) : List Comment :=
  match p.2 with
  | .extension _ => []
  | _ => p.1

def Document.withoutIdleComments (d : Document) : Document where
  definitions := writeRuns ((withRuns d.definitions).map fun p => (documentingRun p, p.2.trimmed))

theorem Drains.bind {γ : Type} {x : Generated γ} {f : γ → Generated (β × DocLines)}
    (h : ∀ a, x = .ok a → Drains (f a)) : Drains (x >>= f) := by
  intro b lines hb
  obtain ⟨a, hx, hf⟩ := Except.bind_eq_ok_iff.1 hb
  exact h a hx hf

theorem Drains.after {γ : Type} {x : Generated (γ × DocLines)} {f : γ × DocLines → Generated (β × DocLines)}
    (hx : Drains x) (h : ∀ g, Drains (f (g, .empty))) : Drains (x >>= f) := by
  apply Drains.bind
  rintro ⟨g, lines⟩ hg
  obtain rfl := hx hg
  exact h g

theorem Drains.pure (b : β) : Drains (Pure.pure (b, DocLines.empty)) := by
  intro b' lines h
  exact (Prod.mk.inj (Except.ok.inj h)).2 ▸ rfl

namespace Context

variable (c : Context)

theorem inputValue_drains (description : Option String) (v : InputValueDefinition) :
    Drains (c.inputValue description v .empty) :=
  Drains.bind fun _ _ => Drains.pure _

theorem arguments_drains (type : String) (f : FieldDefinition) : Drains (c.arguments type f .empty) := by
  rw [arguments]
  split
  · exact Drains.pure none
  · exact (collect_drains _ _).after fun _ => Drains.pure _

theorem interfaceField_drains (type : String) (description : Option String) (f : FieldDefinition) :
    Drains (c.interfaceField type description f .empty) :=
  (c.arguments_drains type f).after fun _ => Drains.bind fun _ _ => Drains.pure _

theorem objectField_drains (type : String) (description : Option String) (f : FieldDefinition) :
    Drains (c.objectField type description f .empty) :=
  (c.arguments_drains type f).after fun _ => Drains.bind fun _ _ => Drains.bind fun _ _ => Drains.pure _

theorem enumValue_drains (enum : String) (description : Option String) (name : String) :
    Drains (c.enumValue enum description name .empty) :=
  Drains.bind fun _ _ => Drains.pure _

theorem contribution_drains (t : TypeDefinition) (lines : DocLines) : Drains (c.contribution t lines) := by
  cases t with
  | object o => exact Drains.bind fun _ _ => (collect_drains _ _).after fun _ => Drains.pure _
  | interface i => exact (collect_drains _ _).after fun _ => Drains.pure _
  | union u => exact Drains.bind fun _ _ => Drains.pure _
  | scalar s => exact Drains.pure _
  | enum e => exact (collect_drains _ _).after fun _ => Drains.pure _
  | inputObject i => exact (collect_drains _ _).after fun _ => Drains.pure _
  | extension o =>
    exact Drains.bind fun _ _ => Drains.bind fun _ _ => (collect_drains _ _).after fun _ => Drains.pure _

end Context

theorem collect_trim {name : α → String} {duplicate : String → GenerateError}
    {build : Option String → α → Documenting β} (f : α → α) (hn : ∀ a, name (f a) = name a)
    (hb : ∀ description a, build description (f a) .empty = build description a .empty)
    (hd : ∀ description a, Drains (build description a .empty)) (members : List (Member α)) :
    collect name duplicate build (trim f members) .empty = collect name duplicate build members .empty := by
  have step (m : OrderedMap β) (p : List Comment × α) :
      collectStep name duplicate build m (p.1, f p.2) = collectStep name duplicate build m p := by
    rw [collectStep, collectStep, hn, hb]
  have trimmed : withRuns (trim f members) = (withRuns members).map fun p => (p.1, f p.2) := withRuns_writeRuns _
  rw [withRuns] at trimmed
  rw [collect, ← waiting_nil, collectFrom_eq_foldlM fun a _ run => hd (describe run) a,
    collectFrom_eq_foldlM fun a _ run => hd (describe run) a, trimmed, List.foldlM_map]
  simp only [step]
  rfl

namespace Context

variable (c : Context)

theorem inputValues_trim (duplicate : String → GenerateError) (members : List (Member InputValueDefinition)) :
    c.inputValues duplicate (trim id members) .empty = c.inputValues duplicate members .empty :=
  collect_trim id (fun _ => rfl) (fun _ _ => rfl) c.inputValue_drains members

theorem arguments_trimmed (type : String) (f : FieldDefinition) :
    c.arguments type f.trimmed .empty = c.arguments type f .empty := by
  rw [arguments, arguments, FieldDefinition.trimmed]
  cases f.arguments with
  | none => rfl
  | some members => simp only [Option.map_some, inputValues_trim]

theorem fieldResolver_trimmed (type : String) (f : FieldDefinition) :
    c.fieldResolver type f.trimmed = c.fieldResolver type f := by
  have h : f.trimmed.isCalculated = f.isCalculated := Option.isSome_map
  rw [fieldResolver, fieldResolver, h]
  rfl

theorem interfaceField_trimmed (type : String) (description : Option String) (f : FieldDefinition) :
    c.interfaceField type description f.trimmed .empty = c.interfaceField type description f .empty := by
  rw [interfaceField, arguments_trimmed]
  rfl

theorem objectField_trimmed (type : String) (description : Option String) (f : FieldDefinition) :
    c.objectField type description f.trimmed .empty = c.objectField type description f .empty := by
  rw [objectField, arguments_trimmed, fieldResolver_trimmed]
  rfl

theorem interfaceFields_trim (type : String) (members : List (Member FieldDefinition)) :
    c.interfaceFields type (trim FieldDefinition.trimmed members) .empty =
      c.interfaceFields type members .empty :=
  collect_trim FieldDefinition.trimmed (fun _ => rfl) (c.interfaceField_trimmed type) (c.interfaceField_drains type) members

theorem objectFields_trim (type : String) (members : List (Member FieldDefinition)) :
    c.objectFields type (trim FieldDefinition.trimmed members) .empty = c.objectFields type members .empty :=
  collect_trim FieldDefinition.trimmed (fun _ => rfl) (c.objectField_trimmed type) (c.objectField_drains type) members

theorem enumValues_trim (enum : String) (members : List (Member String)) :
    c.enumValues enum (trim id members) .empty = c.enumValues enum members .empty :=
  collect_trim id (fun _ => rfl) (fun _ _ => rfl) (c.enumValue_drains enum) members

theorem contributionStep_trimmed (p : List Comment × TypeDefinition) :
    c.contributionStep (documentingRun p, p.2.trimmed) = c.contributionStep p := by
  obtain ⟨run, t⟩ := p
  suffices h : c.contribution t.trimmed (waiting (documentingRun (run, t))) = c.contribution t (waiting run) by
    rw [contributionStep, contributionStep, h]
  cases t with
  | object o =>
    simp only [TypeDefinition.trimmed, documentingRun, contribution, DocLines.take, objectFields_trim]
  | interface i => exact congrArg (· >>= _) (c.interfaceFields_trim i.name i.fields)
  | union u => rfl
  | scalar s => rfl
  | enum e => exact congrArg (· >>= _) (c.enumValues_trim e.name e.values)
  | inputObject i => exact congrArg (· >>= _) (c.inputValues_trim (.duplicateField i.name) i.fields)
  | extension o =>
    simp only [TypeDefinition.trimmed, documentingRun, contribution, DocLines.discard, objectFields_trim]

end Context

theorem trimmed_kind (t : TypeDefinition) : t.trimmed.kind? = t.kind? := by
  cases t <;> rfl

theorem trimmed_name (t : TypeDefinition) : t.trimmed.name = t.name := by
  cases t <;> rfl

theorem ofDocument_withoutIdleComments (d : Document) :
    Scope.ofDocument d.withoutIdleComments = Scope.ofDocument d := by
  have declared (s : Scope) (t : TypeDefinition) : s.declare t.trimmed = s.declare t := by
    rw [Scope.declare, trimmed_kind, trimmed_name]
    rfl
  have types : d.withoutIdleComments.typeDefinitions = d.typeDefinitions.map TypeDefinition.trimmed := by
    rw [Document.typeDefinitions, Document.typeDefinitions, ← withRuns_items, ← withRuns_items,
      Document.withoutIdleComments, withRuns_writeRuns, List.map_map, List.map_map]
    rfl
  rw [Scope.ofDocument, types, List.foldlM_map]
  simp only [declared]
  rfl

theorem generate_idle (m : Implementations) (d : Document) :
    generate m d.withoutIdleComments = generate m d := by
  have runs : withRuns d.withoutIdleComments.definitions =
      (withRuns d.definitions).map fun p => (documentingRun p, p.2.trimmed) := withRuns_writeRuns _
  have built (c : Context) : c.contributions d.withoutIdleComments.definitions .empty =
      c.contributions d.definitions .empty := by
    rw [withRuns] at runs
    rw [← waiting_nil, c.contributions_eq_mapM fun t _ run => c.contribution_drains t _,
      c.contributions_eq_mapM fun t _ run => c.contribution_drains t _, runs, List.mapM_map]
    simp only [Function.comp_def, c.contributionStep_trimmed]
    rfl
  rw [generate, ofDocument_withoutIdleComments]
  simp only [built]
  rfl

end Schemata
