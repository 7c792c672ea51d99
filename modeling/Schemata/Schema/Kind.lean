
namespace Schemata

inductive BuiltinScalar
  | boolean
  | float
  | id
  | int
  | string
deriving DecidableEq

namespace BuiltinScalar

def all : List BuiltinScalar := [boolean, float, id, int, string]

def name : BuiltinScalar → String
  | boolean => "Boolean"
  | float => "Float"
  | id => "ID"
  | int => "Int"
  | string => "String"

def ofName? (name : String) : Option BuiltinScalar := all.find? fun s => s.name = name

theorem ofName?_name (s : BuiltinScalar) : ofName? s.name = some s := by cases s <;> rfl

end BuiltinScalar

inductive Kind
  | builtin (scalar : BuiltinScalar)
  | enum
  | inputObject
  | interface
  | object
  | scalar
  | union
deriving DecidableEq

namespace Kind

def name : Kind → String
  | builtin s => s.name
  | enum => "Enum"
  | inputObject => "InputObject"
  | interface => "Interface"
  | object => "Object"
  | scalar => "Scalar"
  | union => "Union"

def isBuiltin : Kind → Bool
  | builtin _ => true
  | _ => false

def isInput (k : Kind) : Bool := k != object

end Kind

end Schemata
