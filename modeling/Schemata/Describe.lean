import Schemata.Json.Text
import Schemata.Schema.Registry
import Schemata.Text.Lines

namespace Schemata.Describe

def descriptionLines (indent : String) (description : Option String) : List String :=
  match description with
  | none => []
  | some text => (Text.lines text).map fun line => indent ++ "# " ++ line

def inputValue (v : InputValue) : String :=
  v.name ++ ": " ++ v.type.text ++ (v.defaultValue.map fun j => " = " ++ j.text).getD ""

def arguments (args : OrderedMap InputValue) : String :=
  "(" ++ ", ".intercalate (args.values.map inputValue) ++ ")"

def fieldLines (f : Field) : List String :=
  descriptionLines "  " f.description
    ++ ["  " ++ f.name ++ (f.arguments.map arguments).getD "" ++ ": " ++ f.type.text]

def inputFieldLines (v : InputValue) : List String :=
  descriptionLines "  " v.description ++ ["  " ++ inputValue v]

def enumValueLines (v : EnumValue) : List String :=
  descriptionLines "  " v.description ++ ["  " ++ v.name]

def block (description : Option String) (head : String) (body : List String) : String :=
  "\n".intercalate (descriptionLines "" description ++ [head ++ " \x7b"] ++ body ++ ["\x7d"])

def line (description : Option String) (text : String) : String :=
  "\n".intercalate (descriptionLines "" description ++ [text])

def object (t : ObjectType) : String :=
  let implements :=
    if t.interfaces.isEmpty then ""
    else " implements " ++ " & ".intercalate (t.interfaces.map NamedRef.name)
  block t.description ("type " ++ t.name ++ implements) (t.fields.values.flatMap fieldLines)

def interface (t : InterfaceType) : String :=
  block t.description ("interface " ++ t.name) (t.fields.values.flatMap fieldLines)

def union (t : UnionType) : String :=
  line t.description ("union " ++ t.name ++ " = " ++ " | ".intercalate t.members.keys)

def scalar (t : ScalarType) : String := line t.description ("scalar " ++ t.name)

def enum (t : EnumType) : String :=
  block t.description ("enum " ++ t.name) (t.values.values.flatMap enumValueLines)

def inputObject (t : InputObjectType) : String :=
  block t.description ("input " ++ t.name) (t.fields.values.flatMap inputFieldLines)

def registry (r : Registry) : String :=
  "\n\n".intercalate (r.objects.values.map object ++ r.interfaces.values.map interface
    ++ r.unions.values.map union ++ r.scalars.values.map scalar ++ r.enums.values.map enum
    ++ r.inputObjects.values.map inputObject)

end Schemata.Describe
