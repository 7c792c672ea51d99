import Schemata.Document.Parser
import Schemata.Generation.Parts
import Schemata.Schema.Registry
/-!
Registries from documents. Names are declared first, then each definition is built in its turn, and
at last the extensions are added to the types they extend. The first error ends it all.
-/

namespace Schemata

structure Extension where
  typeName : String
  interfaces : List NamedRef
  fields : OrderedMap Field

inductive Contribution
  | object (type : ObjectType)
  | interface (type : InterfaceType)
  | union (type : UnionType)
  | scalar (type : ScalarType)
  | enum (type : EnumType)
  | inputObject (type : InputObjectType)
  | extension (extension : Extension)

namespace Context

def checkExtended (c : Context) (type : String) : Generated Unit :=
  match c.scope.kind? type with
  | some .object => .ok ()
  | some kind => .error (.invalidExtensionType type kind)
  | none => .error (.extensionOfUndefinedType type)

/-- Builds a definition, with the description the waiting lines give. An extension has none, and what
waits before it is discarded. -/
def contribution (c : Context) : TypeDefinition → Documenting Contribution
  | .object d, lines => do
    let (description, lines) := lines.take
    let interfaces ← c.interfaces d.interfaces
    let (fields, lines) ← c.objectFields d.name d.fields lines
    return (.object ⟨d.name, description, interfaces, fields⟩, lines)
  | .interface d, lines => do
    let (description, lines) := lines.take
    let (fields, lines) ← c.interfaceFields d.name d.fields lines
    return (.interface ⟨d.name, description, fields, c.typeResolver d.name⟩, lines)
  | .union d, lines => do
    let (description, lines) := lines.take
    let members ← c.unionMembers d.name d.members
    return (.union ⟨d.name, description, members, c.typeResolver d.name⟩, lines)
  | .scalar d, lines => do
    let (description, lines) := lines.take
    return (.scalar ⟨d.name, description, (c.implementations.scalar? d.name).getD .identity⟩, lines)
  | .enum d, lines => do
    let (description, lines) := lines.take
    let (values, lines) ← c.enumValues d.name d.values lines
    return (.enum ⟨d.name, description, values⟩, lines)
  | .inputObject d, lines => do
    let (description, lines) := lines.take
    let (fields, lines) ← c.inputValues (.duplicateField d.name) d.fields lines
    return (.inputObject ⟨d.name, description, fields⟩, lines)
  | .extension d, lines => do
    let lines := lines.discard
    c.checkExtended d.name
    let interfaces ← c.interfaces d.interfaces
    let (fields, lines) ← c.objectFields d.name d.fields lines
    return (.extension ⟨d.name, interfaces, fields⟩, lines)

def contributions (c : Context) : List (Member TypeDefinition) → Documenting (List Contribution)
  | [], lines => .ok ([], lines.discard)
  | .comment comment :: members, lines => c.contributions members (lines.push comment)
  | .item d :: members, lines => do
    let (first, lines) ← c.contribution d lines
    let (others, lines) ← c.contributions members lines
    return (first :: others, lines)

end Context

/-- Interfaces the type implements already are not added again; a field it has already is an error. -/
def ObjectType.extend (o : ObjectType) (e : Extension) : Generated ObjectType := do
  let interfaces := e.interfaces.foldl (fun refs ref =>
    if refs.any fun r => r.name = ref.name then refs else refs ++ [ref]) o.interfaces
  let fields ← e.fields.entries.foldlM (fun fields f => do
    if fields.contains f.1 then throw (GenerateError.duplicateField e.typeName f.1)
    return fields.insert f.1 f.2) o.fields
  return { o with interfaces, fields }

namespace Registry

def add (r : Registry) : Contribution → Registry
  | .object t => { r with objects := r.objects.insert t.name t }
  | .interface t => { r with interfaces := r.interfaces.insert t.name t }
  | .union t => { r with unions := r.unions.insert t.name t }
  | .scalar t => { r with scalars := r.scalars.insert t.name t }
  | .enum t => { r with enums := r.enums.insert t.name t }
  | .inputObject t => { r with inputObjects := r.inputObjects.insert t.name t }
  | .extension _ => r

def extend (r : Registry) (e : Extension) : Generated Registry :=
  match r.objects.get? e.typeName with
  | none => .error (.extensionOfUndefinedType e.typeName)
  | some o => do
    let o ← o.extend e
    return { r with objects := r.objects.insert e.typeName o }

end Registry

def Contribution.extension? : Contribution → Option Extension
  | extension e => some e
  | _ => none

def generate (m : Implementations) (d : Document) : Generated Registry := do
  let scope ← Scope.ofDocument d
  let (contributions, _) ← Context.contributions ⟨scope, m⟩ d.definitions .empty
  let r := contributions.foldl Registry.add {}
  (contributions.filterMap Contribution.extension?).foldlM Registry.extend r

def generateFromText (m : Implementations) (source : String) : Generated Registry := do
  let d ← (parse source).mapError GenerateError.parse
  generate m d

end Schemata
