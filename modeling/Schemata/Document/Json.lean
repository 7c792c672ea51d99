import Schemata.Document.Basic
import Schemata.Json.Record

namespace Schemata

open Json (record? alternative? required? optional? string? bool? list?)

def labelled (name : String) (content : Json) : Json := .object [(name, content)]

def nameToJson (name : String) : Json := labelled "value" (.string name)

def nameOfJson? (j : Json) : Option String := do
  let [value] ← j.record? ["value"] 1 | none
  required? string? value

def namedToJson (name : String) : Json := labelled "name" (nameToJson name)

def namedOfJson? (j : Json) : Option String := do
  let [name] ← j.record? ["name"] 1 | none
  required? nameOfJson? name

def Comment.toJson (c : Comment) : Json := labelled "value" (.string c.text)

def Comment.ofJson? (j : Json) : Option Comment := (nameOfJson? j).map Comment.mk

namespace TypeRef

def toJson : TypeRef → Json
  | named name => labelled "Named" (namedToJson name)
  | list inner => labelled "List" (labelled "inner" inner.toJson)
  | nonNull inner => labelled "NonNull" (labelled "inner" inner.toJson)

def readWithin? : (bound : Nat) → Json → Option TypeRef
  | 0, _ => none
  | bound + 1, j => do
    let inner (content : Json) : Option TypeRef := do
      let [inner] ← content.record? ["inner"] 1 | none
      required? (readWithin? bound) inner
    match ← alternative? j with
    | ("Named", content) => (namedOfJson? content).map named
    | ("List", content) => (inner content).map list
    | ("NonNull", content) => (inner content).map nonNull
    | _ => none

def ofJson? (j : Json) : Option TypeRef := readWithin? (j.depth + 1) j

end TypeRef

namespace Number

def toJson : Number → Json
  | int value => labelled "Int" (.int value.toInt)
  | float value => labelled "Float" (.ofBinary64 value)

/-- A whole number serves where a double precision number is asked for, but not the other way. -/
def ofJson? (j : Json) : Option Number := do
  match ← alternative? j with
  | ("Int", .int n) =>
    if Int64.minValue.toInt ≤ n ∧ n ≤ Int64.maxValue.toInt then some (int (Int64.ofInt n)) else none
  | ("Float", .int n) => some (float (Binary64.ofNat (n < 0) n.natAbs))
  | ("Float", .float x) => some (float x)
  | _ => none

end Number

namespace Value

mutual

def toJson : Value → Json
  | boolean value => labelled "Boolean" (labelled "value" (.bool value))
  | enum name => labelled "Enum" (namedToJson name)
  | list items => labelled "List" (labelled "values" (.array (itemsToJson items)))
  | number value => labelled "Number" (labelled "value" value.toJson)
  | object fields => labelled "Object" (labelled "fields" (.array (fieldsToJson fields)))
  | string value => labelled "String" (labelled "value" (.string value))

def itemsToJson : List Value → List Json
  | [] => []
  | item :: items => item.toJson :: itemsToJson items

def fieldsToJson : List (String × Value) → List Json
  | [] => []
  | (name, value) :: fields =>
    .object [("name", nameToJson name), ("value", value.toJson)] :: fieldsToJson fields

end

def readWithin? : (bound : Nat) → Json → Option Value
  | 0, _ => none
  | bound + 1, j => do
    let content (name : String) (j : Json) : Option (Option Json) := do
      let [value] ← j.record? [name] 1 | none
      return value
    let field (j : Json) : Option (String × Value) := do
      let [name, value] ← j.record? ["name", "value"] 2 | none
      return (← required? nameOfJson? name, ← required? (readWithin? bound) value)
    match ← alternative? j with
    | ("Boolean", j) => (required? bool? (← content "value" j)).map boolean
    | ("Enum", j) => (namedOfJson? j).map enum
    | ("List", j) => (required? (list? (readWithin? bound)) (← content "values" j)).map list
    | ("Number", j) => (required? Number.ofJson? (← content "value" j)).map number
    | ("Object", j) => (required? (list? field) (← content "fields" j)).map object
    | ("String", j) => (required? string? (← content "value" j)).map string
    | _ => none

def ofJson? (j : Json) : Option Value := readWithin? (j.depth + 1) j

end Value

namespace Member

variable {α : Type}

def toJson (item : α → Json) : Member α → Json
  | comment c => labelled "Comment" c.toJson
  | .item a => labelled "Item" (item a)

def ofJson? (item : Json → Option α) (j : Json) : Option (Member α) := do
  match ← alternative? j with
  | ("Comment", content) => (Comment.ofJson? content).map comment
  | ("Item", content) => (item content).map .item
  | _ => none

end Member

def listToJson {α : Type} (f : α → Json) (xs : List α) : Json := .array (xs.map f)

def InputValueDefinition.toJson (v : InputValueDefinition) : Json :=
  .object [("name", nameToJson v.name), ("value_type", v.type.toJson),
    ("default_value", (v.defaultValue.map Value.toJson).getD .null)]

def InputValueDefinition.ofJson? (j : Json) : Option InputValueDefinition := do
  let [name, type, value] ← j.record? ["name", "value_type", "default_value"] 3 | none
  return ⟨← required? nameOfJson? name, ← required? TypeRef.ofJson? type, ← optional? Value.ofJson? value⟩

def FieldDefinition.toJson (f : FieldDefinition) : Json :=
  .object [("name", nameToJson f.name),
    ("arguments", (f.arguments.map (listToJson (Member.toJson InputValueDefinition.toJson))).getD .null),
    ("field_type", f.type.toJson)]

def FieldDefinition.ofJson? (j : Json) : Option FieldDefinition := do
  let [name, arguments, type] ← j.record? ["name", "arguments", "field_type"] 3 | none
  return ⟨← required? nameOfJson? name,
    ← optional? (list? (Member.ofJson? InputValueDefinition.ofJson?)) arguments,
    ← required? TypeRef.ofJson? type⟩

def ObjectDefinition.toJson (o : ObjectDefinition) : Json :=
  .object [("name", nameToJson o.name), ("interfaces", listToJson namedToJson o.interfaces),
    ("fields", listToJson (Member.toJson FieldDefinition.toJson) o.fields)]

def ObjectDefinition.ofJson? (j : Json) : Option ObjectDefinition := do
  let [name, interfaces, fields] ← j.record? ["name", "interfaces", "fields"] 3 | none
  return ⟨← required? nameOfJson? name, ← required? (list? namedOfJson?) interfaces,
    ← required? (list? (Member.ofJson? FieldDefinition.ofJson?)) fields⟩

def namedListToJson (name : String) (key : String) (items : Json) : Json :=
  .object [("name", nameToJson name), (key, items)]

def namedListOfJson? {α : Type} (key : String) (item : Json → Option α) (j : Json) :
    Option (String × List α) := do
  let [name, items] ← j.record? ["name", key] 2 | none
  return (← required? nameOfJson? name, ← required? (list? item) items)

namespace TypeDefinition

def toJson : TypeDefinition → Json
  | object d => labelled "ObjectType" d.toJson
  | interface d => labelled "InterfaceType"
      (namedListToJson d.name "fields" (listToJson (Member.toJson FieldDefinition.toJson) d.fields))
  | union d => labelled "UnionType" (namedListToJson d.name "types" (listToJson namedToJson d.members))
  | scalar d => labelled "ScalarType" (namedToJson d.name)
  | enum d => labelled "EnumType"
      (namedListToJson d.name "values" (listToJson (Member.toJson namedToJson) d.values))
  | inputObject d => labelled "InputObjectType"
      (namedListToJson d.name "fields" (listToJson (Member.toJson InputValueDefinition.toJson) d.fields))
  | extension d => labelled "TypeExtension" (labelled "definition" d.toJson)

def ofAlternative? : String → Json → Option TypeDefinition
  | "ObjectType", j => (ObjectDefinition.ofJson? j).map object
  | "InterfaceType", j =>
    (namedListOfJson? "fields" (Member.ofJson? FieldDefinition.ofJson?) j).map fun p =>
      interface ⟨p.1, p.2⟩
  | "UnionType", j => (namedListOfJson? "types" namedOfJson? j).map fun p => union ⟨p.1, p.2⟩
  | "ScalarType", j => (namedOfJson? j).map fun name => scalar ⟨name⟩
  | "EnumType", j =>
    (namedListOfJson? "values" (Member.ofJson? namedOfJson?) j).map fun p => enum ⟨p.1, p.2⟩
  | "InputObjectType", j =>
    (namedListOfJson? "fields" (Member.ofJson? InputValueDefinition.ofJson?) j).map fun p =>
      inputObject ⟨p.1, p.2⟩
  | "TypeExtension", j => do
    let [definition] ← j.record? ["definition"] 1 | none
    (required? ObjectDefinition.ofJson? definition).map extension
  | _, _ => none

end TypeDefinition

namespace Document

def entryToJson : Member TypeDefinition → Json
  | .comment c => labelled "Comment" c.toJson
  | .item d => d.toJson

def entryOfJson? (j : Json) : Option (Member TypeDefinition) := do
  match ← alternative? j with
  | ("Comment", content) => (Comment.ofJson? content).map .comment
  | (name, content) => (TypeDefinition.ofAlternative? name content).map .item

def toJson (d : Document) : Json := labelled "definitions" (listToJson entryToJson d.definitions)

def ofJson? (j : Json) : Option Document := do
  let [definitions] ← j.record? ["definitions"] 1 | none
  (required? (list? entryOfJson?) definitions).map Document.mk

end Document

end Schemata
