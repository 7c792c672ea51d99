import Schemata.OrderedMap
import Schemata.Resolver.Field
import Schemata.Resolver.Scalar
import Schemata.Schema.Annotation

namespace Schemata

structure InputValue where
  name : String
  description : Option String
  type : Annotation
  defaultValue : Option Json
deriving DecidableEq

structure Field where
  name : String
  description : Option String
  type : Annotation
  arguments : Option (OrderedMap InputValue)
  resolver : Option BoundFieldResolver

def Field.isCalculated (f : Field) : Bool := f.arguments.isSome

structure ObjectType where
  name : String
  description : Option String
  interfaces : List NamedRef
  fields : OrderedMap Field

def ObjectType.implements (o : ObjectType) (interface : String) : Bool :=
  o.interfaces.any fun ref => ref.name = interface

inductive ResolvedType
  | byName (name : String)
  | object (type : ObjectType)

abbrev TypeResolver := Json → OrderedMap ObjectType → ResolvedType

def TypeResolver.byName (f : Json → String) : TypeResolver := fun value _ => .byName (f value)

structure BoundTypeResolver where
  abstractType : String
  resolver : TypeResolver

structure InterfaceType where
  name : String
  description : Option String
  fields : OrderedMap Field
  typeResolver : Option BoundTypeResolver

structure UnionType where
  name : String
  description : Option String
  members : OrderedMap NamedRef
  typeResolver : Option BoundTypeResolver

structure ScalarType where
  name : String
  description : Option String
  implementation : ScalarImplementation

structure EnumValue where
  name : String
  description : Option String
  value : Json
deriving DecidableEq

structure EnumType where
  name : String
  description : Option String
  values : OrderedMap EnumValue
deriving DecidableEq

structure InputObjectType where
  name : String
  description : Option String
  fields : OrderedMap InputValue
deriving DecidableEq

end Schemata
