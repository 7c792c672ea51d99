import Schemata.Document.TypeRef
import Schemata.Document.Value

namespace Schemata

structure Comment where
  text : String
deriving DecidableEq

def Comment.content (c : Comment) : String :=
  match c.text.toList with
  | '#' :: cs => String.ofList cs
  | _ => c.text

inductive Member (α : Type)
  | comment (comment : Comment)
  | item (item : α)
deriving DecidableEq

def Member.item? {α : Type} : Member α → Option α
  | comment _ => none
  | item a => some a

def items {α : Type} (members : List (Member α)) : List α := members.filterMap Member.item?

structure InputValueDefinition where
  name : String
  type : TypeRef
  defaultValue : Option Value
deriving DecidableEq

/-- A field of an object or interface. One with an argument list, even an empty one, is calculated. -/
structure FieldDefinition where
  name : String
  arguments : Option (List (Member InputValueDefinition))
  type : TypeRef
deriving DecidableEq

def FieldDefinition.isCalculated (f : FieldDefinition) : Bool := f.arguments.isSome

structure ObjectDefinition where
  name : String
  interfaces : List String
  fields : List (Member FieldDefinition)
deriving DecidableEq

structure InterfaceDefinition where
  name : String
  fields : List (Member FieldDefinition)
deriving DecidableEq

structure UnionDefinition where
  name : String
  members : List String
deriving DecidableEq

structure ScalarDefinition where
  name : String
deriving DecidableEq

structure EnumDefinition where
  name : String
  values : List (Member String)
deriving DecidableEq

structure InputObjectDefinition where
  name : String
  fields : List (Member InputValueDefinition)
deriving DecidableEq

inductive TypeDefinition
  | object (definition : ObjectDefinition)
  | interface (definition : InterfaceDefinition)
  | union (definition : UnionDefinition)
  | scalar (definition : ScalarDefinition)
  | enum (definition : EnumDefinition)
  | inputObject (definition : InputObjectDefinition)
  | extension (definition : ObjectDefinition)
deriving DecidableEq

def TypeDefinition.name : TypeDefinition → String
  | object d => d.name
  | interface d => d.name
  | union d => d.name
  | scalar d => d.name
  | enum d => d.name
  | inputObject d => d.name
  | extension d => d.name

structure Document where
  definitions : List (Member TypeDefinition)
deriving DecidableEq

namespace Document

def typeDefinitions (d : Document) : List TypeDefinition := items d.definitions

def objectDefinitions (d : Document) : List ObjectDefinition :=
  d.typeDefinitions.filterMap fun
    | .object o => some o
    | .extension o => some o
    | _ => none

end Document

end Schemata
