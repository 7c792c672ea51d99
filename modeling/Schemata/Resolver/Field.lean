import Schemata.Json.Basic

namespace Schemata

structure ResolveInfo where
  parentType : String
  field : String
deriving DecidableEq

structure ResolveParams where
  source : Json
  arguments : List (String × Json)
  context : Json
  info : ResolveInfo
deriving DecidableEq

inductive ResolverError
  | message (text : String)
  | field (typeName fieldName : String) (source : ResolverError)
deriving DecidableEq

namespace ResolverError

def text : ResolverError → String
  | message text => text
  | field typeName fieldName source => typeName ++ "." ++ fieldName ++ ": " ++ source.text

def path : ResolverError → List (String × String)
  | message _ => []
  | field typeName fieldName source => (typeName, fieldName) :: source.path

end ResolverError

abbrev FieldResolver := ResolveParams → Except ResolverError Json

def FieldResolver.constant (value : Json) : FieldResolver := fun _ => .ok value

structure BoundFieldResolver where
  typeName : String
  fieldName : String
  resolver : FieldResolver

def BoundFieldResolver.invoke (b : BoundFieldResolver) (params : ResolveParams) :
    Except ResolverError Json :=
  (b.resolver { params with info := ⟨b.typeName, b.fieldName⟩ }).mapError
    (.field b.typeName b.fieldName)

end Schemata
