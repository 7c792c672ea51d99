import Schemata.Document.Basic
import Schemata.Schema.Types

namespace Schemata

structure TypeImplementation where
  fields : OrderedMap FieldResolver := .empty
  typeResolver : Option TypeResolver := none
  scalar : Option ScalarImplementation := none
  enumValues : OrderedMap Json := .empty

structure Implementations where
  types : OrderedMap TypeImplementation := .empty

namespace Implementations

def empty : Implementations := {}

def modify (m : Implementations) (type : String) (f : TypeImplementation → TypeImplementation) :
    Implementations :=
  ⟨m.types.modify type {} f⟩

def field (m : Implementations) (type field : String) (resolver : FieldResolver) : Implementations :=
  m.modify type fun t => { t with fields := t.fields.insert field resolver }

def resolveType (m : Implementations) (type : String) (resolver : TypeResolver) : Implementations :=
  m.modify type fun t => { t with typeResolver := some resolver }

def scalar (m : Implementations) (type : String) (s : ScalarImplementation) : Implementations :=
  m.modify type fun t => { t with scalar := some s }

def enumValue (m : Implementations) (type name : String) (value : Json) : Implementations :=
  m.modify type fun t => { t with enumValues := t.enumValues.insert name value }

def insert (m : Implementations) (type : String) (t : TypeImplementation) : Implementations :=
  ⟨m.types.insert type t⟩

def get? (m : Implementations) (type : String) : Option TypeImplementation := m.types.get? type

def fieldResolver? (m : Implementations) (type field : String) : Option FieldResolver := do
  (← m.get? type).fields.get? field

def typeResolver? (m : Implementations) (type : String) : Option TypeResolver := do
  (← m.get? type).typeResolver

def scalar? (m : Implementations) (type : String) : Option ScalarImplementation := do
  (← m.get? type).scalar

def enumValues? (m : Implementations) (type : String) : Option (OrderedMap Json) := do
  let values := (← m.get? type).enumValues
  if values.isEmpty then none else values

def fieldIfAbsent (m : Implementations) (type field : String) (resolver : FieldResolver) :
    Implementations :=
  m.modify type fun t =>
    if t.fields.contains field then t else { t with fields := t.fields.insert field resolver }

end Implementations

def Document.calculatedFields (d : Document) : List (String × String) :=
  d.objectDefinitions.flatMap fun o =>
    ((items o.fields).filter FieldDefinition.isCalculated).map fun f => (o.name, f.name)

/-- Provides a resolver that gives null for every calculated field without one, so that the document
can be checked without being run. -/
def Implementations.withPlaceholders (m : Implementations) (d : Document) : Implementations :=
  d.calculatedFields.foldl (fun m f => m.fieldIfAbsent f.1 f.2 (.constant .null)) m

end Schemata
