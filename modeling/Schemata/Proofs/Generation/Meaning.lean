import Schemata.Generation.Basic
import Schemata.Proofs.Generation.Collecting
import Schemata.Proofs.Generation.Scoping
/-!
The registry that a document means. Each part is given outright by what is written: nothing waits, nothing
fails, and a name without a kind is taken to be some scalar's.
-/

namespace Schemata

namespace Context

variable (c : Context)

def annotationOf : TypeRef → Annotation
  | .named name => .named ⟨name, (c.scope.kind? name).getD .scalar⟩
  | .list inner => .list (annotationOf inner)
  | .nonNull inner => .nonNull (annotationOf inner)

def inputValueOf (run : List Comment) (v : InputValueDefinition) : InputValue :=
  ⟨v.name, describe run, c.annotationOf v.type, v.defaultValue.map Value.runtimeValue⟩

def inputValuesOf (members : List (Member InputValueDefinition)) : OrderedMap InputValue :=
  collected InputValueDefinition.name c.inputValueOf members

def resolverOf (type : String) (f : FieldDefinition) : Option BoundFieldResolver :=
  (c.implementations.fieldResolver? type f.name).map fun resolver => ⟨type, f.name, resolver⟩

def fieldOf (resolver : FieldDefinition → Option BoundFieldResolver) (run : List Comment)
    (f : FieldDefinition) : Field :=
  ⟨f.name, describe run, c.annotationOf f.type, f.arguments.map c.inputValuesOf, resolver f⟩

def interfaceFieldsOf (members : List (Member FieldDefinition)) : OrderedMap Field :=
  collected FieldDefinition.name (c.fieldOf fun _ => none) members

def objectFieldsOf (type : String) (members : List (Member FieldDefinition)) : OrderedMap Field :=
  collected FieldDefinition.name (c.fieldOf (c.resolverOf type)) members

def valueOf (enum name : String) : Json :=
  match c.implementations.enumValues? enum with
  | none => .string name
  | some values => (values.get? name).getD .null

def enumValueOf (enum : String) (run : List Comment) (name : String) : EnumValue :=
  ⟨name, describe run, c.valueOf enum name⟩

def enumValuesOf (enum : String) (members : List (Member String)) : OrderedMap EnumValue :=
  collected id (c.enumValueOf enum) members

end Context

def NamedRef.interfaces (names : List String) : List NamedRef := names.eraseDups.map fun name => ⟨name, .interface⟩

def NamedRef.members (names : List String) : OrderedMap NamedRef := .ofList (names.map fun name => (name, ⟨name, .object⟩))

namespace Context

variable (c : Context)

def extensionOf (o : ObjectDefinition) : Extension :=
  ⟨o.name, NamedRef.interfaces o.interfaces, c.objectFieldsOf o.name o.fields⟩

def objectOf (run : List Comment) (o : ObjectDefinition) : ObjectType :=
  ⟨o.name, describe run, NamedRef.interfaces o.interfaces, c.objectFieldsOf o.name o.fields⟩

def interfaceOf (run : List Comment) (i : InterfaceDefinition) : InterfaceType :=
  ⟨i.name, describe run, c.interfaceFieldsOf i.fields, c.typeResolver i.name⟩

def unionOf (run : List Comment) (u : UnionDefinition) : UnionType :=
  ⟨u.name, describe run, NamedRef.members u.members, c.typeResolver u.name⟩

def scalarOf (run : List Comment) (s : ScalarDefinition) : ScalarType :=
  ⟨s.name, describe run, (c.implementations.scalar? s.name).getD .identity⟩

def enumOf (run : List Comment) (e : EnumDefinition) : EnumType :=
  ⟨e.name, describe run, c.enumValuesOf e.name e.values⟩

def inputObjectOf (run : List Comment) (i : InputObjectDefinition) : InputObjectType :=
  ⟨i.name, describe run, c.inputValuesOf i.fields⟩

def contributionOf (run : List Comment) : TypeDefinition → Contribution
  | .object o => .object (c.objectOf run o)
  | .interface i => .interface (c.interfaceOf run i)
  | .union u => .union (c.unionOf run u)
  | .scalar s => .scalar (c.scalarOf run s)
  | .enum e => .enum (c.enumOf run e)
  | .inputObject i => .inputObject (c.inputObjectOf run i)
  | .extension o => .extension (c.extensionOf o)

end Context

def ObjectType.merge (o : ObjectType) (e : Extension) : ObjectType where
  name := o.name
  description := o.description
  interfaces := e.interfaces.foldl (fun refs ref =>
    if refs.any fun r => r.name = ref.name then refs else refs ++ [ref]) o.interfaces
  fields := e.fields.entries.foldl (fun fields f => fields.insert f.1 f.2) o.fields

def Registry.extended (r : Registry) (es : List Extension) : Registry :=
  { r with objects := r.objects.mapValues fun key o => (es.filter fun e => e.typeName = key).foldl .merge o }

namespace Document

variable (m : Implementations) (d : Document)

def context : Context := ⟨d.scope, m⟩

def contributions : List Contribution :=
  (withRuns d.definitions).map fun p => (d.context m).contributionOf p.1 p.2

def base : Registry := (d.contributions m).foldl Registry.add {}

/-- The registry a document means, should it be valid. -/
def registry : Registry := (d.base m).extended (d.extensions.map (d.context m).extensionOf)

end Document

end Schemata
