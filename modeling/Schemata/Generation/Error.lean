import Schemata.Schema.Kind
import Schemata.SyntaxError

namespace Schemata

inductive GenerateError
  | parse (error : SyntaxError)
  | duplicateType (type : String)
  | duplicateField (type field : String)
  | duplicateArgument (type field argument : String)
  | duplicateEnumValue (enum value : String)
  | duplicateUnionMember (union member : String)
  | extensionOfUndefinedType (type : String)
  | incompleteEnumImplementation (enum value : String)
  | invalidExtensionType (type : String) (kind : Kind)
  | invalidUnionMember (union member : String) (kind : Kind)
  | missingFieldImplementation (type field : String)
  | noQueryType
  | undefinedType (type : String)
  | undefinedInterface (interface : String)
deriving DecidableEq

def ticked (name : String) : String := "\x60" ++ name ++ "\x60"

def GenerateError.message : GenerateError → String
  | parse error => error.text
  | duplicateType type => "Multiple types named " ++ ticked type ++ " were defined"
  | duplicateField type field =>
    "The " ++ ticked type ++ " type defines the " ++ ticked field ++ " field more than once"
  | duplicateArgument type field argument =>
    ticked (type ++ "." ++ field) ++ " defines the " ++ ticked argument ++ " argument more than once"
  | duplicateEnumValue enum value =>
    "The " ++ ticked enum ++ " enum defines the " ++ ticked value ++ " value more than once"
  | duplicateUnionMember union member =>
    "The " ++ ticked union ++ " union lists " ++ ticked member ++ " as a member more than once"
  | extensionOfUndefinedType type => "Attempted to extend " ++ ticked type ++ ", which is not defined"
  | incompleteEnumImplementation enum value =>
    "The " ++ ticked enum ++ " enum has an implementation, but it does not provide a value for "
      ++ ticked value
  | invalidExtensionType type kind =>
    "Attempted to extend " ++ ticked type ++ ", but only object types can be extended (it is "
      ++ kind.name ++ ")"
  | invalidUnionMember union member kind =>
    ticked member ++ " cannot be a member of the " ++ ticked union
      ++ " union: union members must be object types (it is " ++ kind.name ++ ")"
  | missingFieldImplementation type field =>
    type ++ "." ++ field
      ++ " is calculated (i.e. it accepts arguments) but does not have an implementation"
  | noQueryType => "No " ++ ticked "Query" ++ " object type is defined"
  | undefinedType type => type ++ " is not implemented."
  | undefinedInterface interface => interface ++ " is not defined."

end Schemata
