import Schemata.Schema.Types

namespace Schemata

structure Registry where
  objects : OrderedMap ObjectType := .empty
  interfaces : OrderedMap InterfaceType := .empty
  unions : OrderedMap UnionType := .empty
  scalars : OrderedMap ScalarType := .empty
  enums : OrderedMap EnumType := .empty
  inputObjects : OrderedMap InputObjectType := .empty

inductive SchemaType
  | builtin (scalar : BuiltinScalar)
  | object (type : ObjectType)
  | interface (type : InterfaceType)
  | union (type : UnionType)
  | scalar (type : ScalarType)
  | enum (type : EnumType)
  | inputObject (type : InputObjectType)

namespace SchemaType

def name : SchemaType → String
  | builtin s => s.name
  | object t => t.name
  | interface t => t.name
  | union t => t.name
  | scalar t => t.name
  | enum t => t.name
  | inputObject t => t.name

def kind : SchemaType → Kind
  | builtin s => .builtin s
  | object _ => .object
  | interface _ => .interface
  | union _ => .union
  | scalar _ => .scalar
  | enum _ => .enum
  | inputObject _ => .inputObject

def description : SchemaType → Option String
  | builtin _ => none
  | object t => t.description
  | interface t => t.description
  | union t => t.description
  | scalar t => t.description
  | enum t => t.description
  | inputObject t => t.description

end SchemaType

inductive DerefError
  | dangling (name : String)
deriving DecidableEq

def DerefError.message : DerefError → String
  | dangling name => "\x60" ++ name ++ "\x60 does not name a type in this registry"

inductive TypeResolutionError
  | unknownObjectType (abstractType typeName : String)
  | notAPossibleType (abstractType typeName : String)
deriving DecidableEq

def TypeResolutionError.message : TypeResolutionError → String
  | unknownObjectType abstractType typeName =>
    "the type resolver for \x60" ++ abstractType ++ "\x60 returned \x60" ++ typeName
      ++ "\x60, which is not an object type"
  | notAPossibleType abstractType typeName =>
    "\x60" ++ typeName ++ "\x60 is not a possible type of \x60" ++ abstractType ++ "\x60"

namespace Registry

def lookup (r : Registry) (name : String) : Option SchemaType :=
  (BuiltinScalar.ofName? name).map .builtin
    <|> (r.objects.get? name).map .object
    <|> (r.interfaces.get? name).map .interface
    <|> (r.unions.get? name).map .union
    <|> (r.scalars.get? name).map .scalar
    <|> (r.enums.get? name).map .enum
    <|> (r.inputObjects.get? name).map .inputObject

def contains (r : Registry) (name : String) : Bool := (r.lookup name).isSome

def deref (r : Registry) (ref : NamedRef) : Except DerefError SchemaType :=
  match r.lookup ref.name with
  | some type => .ok type
  | none => .error (.dangling ref.name)

def isPossibleType (r : Registry) (abstractType objectType : String) : Bool :=
  match r.unions.get? abstractType with
  | some union => union.members.contains objectType
  | none =>
    r.interfaces.contains abstractType
      && (r.objects.get? objectType).any fun object => object.implements abstractType

def implementors (r : Registry) (interface : String) : List ObjectType :=
  r.objects.values.filter fun object => object.implements interface

def memberTypes (r : Registry) (union : UnionType) : List ObjectType :=
  union.members.keys.filterMap r.objects.get?

def query? (r : Registry) : Option ObjectType := r.objects.get? "Query"

def mutation? (r : Registry) : Option ObjectType := r.objects.get? "Mutation"

def subscription? (r : Registry) : Option ObjectType := r.objects.get? "Subscription"

def size (r : Registry) : Nat :=
  r.enums.size + r.inputObjects.size + r.interfaces.size + r.objects.size + r.scalars.size
    + r.unions.size

def isEmpty (r : Registry) : Bool := r.size = 0

end Registry

/-- The object type of a value of the bound interface or union. It has to be a possible one. -/
def BoundTypeResolver.resolve (b : BoundTypeResolver) (r : Registry) (value : Json) :
    Except TypeResolutionError ObjectType := do
  let object ← match b.resolver value r.objects with
    | .object type => .ok type
    | .byName name =>
      match r.objects.get? name with
      | some type => .ok type
      | none => .error (.unknownObjectType b.abstractType name)
  if r.isPossibleType b.abstractType object.name then return object
  else throw (.notAPossibleType b.abstractType object.name)

end Schemata
