import Schemata.Proofs.Generation.Assembly

namespace Schemata

def Document.SameKinds (d d' : Document) : Prop := ∀ name kind, d.Defines name kind ↔ d'.Defines name kind

namespace Document.SameKinds

variable {d d' : Document}

theorem of_declarations (h : ∀ p, p ∈ d.declarations ↔ p ∈ d'.declarations) : d.SameKinds d' := by
  intro name kind
  rw [← mem_declarations, ← mem_declarations]
  exact h (name, kind)

theorem symm (h : d.SameKinds d') : d'.SameKinds d := fun name kind => (h name kind).symm

theorem hasKind_iff (h : d.SameKinds d') (name : String) (kind : Kind) : d.HasKind name kind ↔ d'.HasKind name kind := by
  apply or_congr_left
  exact h name kind

theorem knows_iff (h : d.SameKinds d') (name : String) : d.Knows name ↔ d'.Knows name := by
  apply exists_congr
  intro kind
  exact h.hasKind_iff name kind

end Document.SameKinds

section

variable {d d' : Document} {m : Implementations} (h : d.SameKinds d')
include h

theorem InputValueDefinition.Valid.transfer {v : InputValueDefinition} (hv : v.Valid d) : v.Valid d' :=
  ⟨(h.knows_iff _).1 hv.1, fun ho => hv.2 ((h _ _).2 ho)⟩

theorem FieldDefinition.Valid.transfer {f : FieldDefinition} (hf : f.Valid d) : f.Valid d' where
  type := (h.knows_iff _).1 hf.type
  names := hf.names
  inputs v hv := (hf.inputs v hv).transfer h

theorem ObjectDefinition.Valid.transfer {o : ObjectDefinition} (ho : o.Valid m d) : o.Valid m d' where
  interfaces name hn := (h _ _).1 (ho.interfaces name hn)
  fields f hf := (ho.fields f hf).transfer h
  resolvers := ho.resolvers

theorem TypeDefinition.Valid.transfer {t : TypeDefinition} (ht : t.Valid m d) : t.Valid m d' := by
  cases t with
  | object o => exact ObjectDefinition.Valid.transfer h ht
  | interface i => exact ⟨ht.names, fun f hf => (ht.fields f hf).transfer h⟩
  | union u => exact ⟨ht.names, fun name hn => (h _ _).1 (ht.members name hn)⟩
  | scalar s => trivial
  | enum e => exact ht
  | inputObject i => exact ⟨ht.names, fun v hv => (ht.fields v hv).transfer h⟩
  | extension o => exact ⟨(h _ _).1 ht.1, ObjectDefinition.Valid.transfer h ht.2⟩

theorem TypeDefinition.valid_congr {t : TypeDefinition} : t.Valid m d ↔ t.Valid m d' :=
  ⟨Valid.transfer h, Valid.transfer h.symm⟩

end

namespace Context

variable {s s' : Scope} {m n : Implementations} (h : ∀ name, s.kind? name = s'.kind? name)
include h

theorem annotationOf_congr : (Context.mk s m).annotationOf = (Context.mk s' n).annotationOf := by
  funext t
  induction t with
  | named name => simp only [annotationOf, h]
  | list inner ih => simp only [annotationOf, ih]
  | nonNull inner ih => simp only [annotationOf, ih]

theorem inputValueOf_congr : (Context.mk s m).inputValueOf = (Context.mk s' n).inputValueOf := by
  funext run v
  simp only [inputValueOf, annotationOf_congr (n := n) h]

theorem inputValuesOf_congr : (Context.mk s m).inputValuesOf = (Context.mk s' n).inputValuesOf := by
  funext members
  simp only [inputValuesOf, inputValueOf_congr (n := n) h]

theorem fieldOf_congr : (Context.mk s m).fieldOf = (Context.mk s' n).fieldOf := by
  funext resolver run f
  simp only [fieldOf, annotationOf_congr (n := n) h, inputValuesOf_congr (n := n) h]

theorem objectFieldsOf_congr : (Context.mk s m).objectFieldsOf = (Context.mk s' m).objectFieldsOf := by
  funext type members
  simp only [objectFieldsOf, fieldOf_congr (n := m) h]
  rfl

theorem interfaceFieldsOf_congr : (Context.mk s m).interfaceFieldsOf = (Context.mk s' n).interfaceFieldsOf := by
  funext members
  simp only [interfaceFieldsOf, fieldOf_congr (n := n) h]

theorem extensionOf_congr : (Context.mk s m).extensionOf = (Context.mk s' m).extensionOf := by
  funext o
  simp only [extensionOf, objectFieldsOf_congr h]

theorem contributionOf_congr : (Context.mk s m).contributionOf = (Context.mk s' m).contributionOf := by
  funext run t
  cases t with
  | object o => simp only [contributionOf, objectOf, objectFieldsOf_congr h]
  | interface i =>
    simp only [contributionOf, interfaceOf, interfaceFieldsOf_congr (n := m) h]
    rfl
  | union u => rfl
  | scalar c => rfl
  | enum e => rfl
  | inputObject i => simp only [contributionOf, inputObjectOf, inputValuesOf_congr (n := m) h]
  | extension o => simp only [contributionOf, extensionOf_congr h]

end Context

namespace Document

variable {d d' : Document} {m : Implementations}

theorem SameKinds.scope_kind? (h : d.SameKinds d') (hn : (Scope.builtin.kinds.keys ++ d.declaredNames).Nodup)
    (hn' : (Scope.builtin.kinds.keys ++ d'.declaredNames).Nodup) (name : String) :
    d.scope.kind? name = d'.scope.kind? name := by
  apply Option.ext
  intro kind
  rw [scope_agrees hn, scope_agrees hn', h.hasKind_iff]

end Document

end Schemata
