import Schemata.Document.Basic
import Schemata.Generation.Error
import Schemata.OrderedMap
import Schemata.Schema.Annotation

namespace Schemata

inductive TypePosition
  | input
  | output
deriving DecidableEq

def TypeDefinition.kind? : TypeDefinition → Option Kind
  | object _ => some .object
  | interface _ => some .interface
  | union _ => some .union
  | scalar _ => some .scalar
  | enum _ => some .enum
  | inputObject _ => some .inputObject
  | extension _ => none

structure Scope where
  kinds : OrderedMap Kind

namespace Scope

def builtin : Scope := ⟨.ofList (BuiltinScalar.all.map fun s => (s.name, .builtin s))⟩

def kind? (s : Scope) (name : String) : Option Kind := s.kinds.get? name

def declare (s : Scope) (d : TypeDefinition) : Except GenerateError Scope :=
  match d.kind? with
  | none => .ok s
  | some kind =>
    if s.kinds.contains d.name then .error (.duplicateType d.name)
    else .ok ⟨s.kinds.insert d.name kind⟩

def ofDocument (d : Document) : Except GenerateError Scope :=
  d.typeDefinitions.foldlM declare builtin

/-- The type a reference means. An object type in an input position counts as unknown. -/
def resolve (s : Scope) (position : TypePosition) : TypeRef → Except GenerateError Annotation
  | .named name =>
    match s.kind? name with
    | some kind =>
      if position = .output ∨ kind.isInput then .ok (.named ⟨name, kind⟩)
      else .error (.undefinedType name)
    | none => .error (.undefinedType name)
  | .list inner => do return .list (← s.resolve position inner)
  | .nonNull inner => do return .nonNull (← s.resolve position inner)

end Scope

end Schemata
