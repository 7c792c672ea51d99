import Schemata.Schema.Kind

namespace Schemata

structure NamedRef where
  name : String
  kind : Kind
deriving DecidableEq

inductive Annotation
  | named (ref : NamedRef)
  | list (inner : Annotation)
  | nonNull (inner : Annotation)
deriving DecidableEq

namespace Annotation

def innermost : Annotation → NamedRef
  | named ref => ref
  | list inner => inner.innermost
  | nonNull inner => inner.innermost

def text : Annotation → String
  | named ref => ref.name
  | list inner => "[" ++ inner.text ++ "]"
  | nonNull inner => inner.text ++ "!"

def isNullable : Annotation → Bool
  | nonNull _ => false
  | _ => true

def isList : Annotation → Bool
  | named _ => false
  | list _ => true
  | nonNull inner => inner.isList

end Annotation

end Schemata
