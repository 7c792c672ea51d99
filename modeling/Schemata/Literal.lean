import Schemata.Document.Value
import Schemata.Json.Number
/-!
Literals and the JSON values they stand for: the literals of queries, whose numbers are kept as they
were written, and the values of schema documents.
-/

namespace Schemata

inductive QueryLiteral
  | int (lexeme : String)
  | float (lexeme : String)
  | string (value : String)
  | boolean (value : Bool)
  | null
  | enum (name : String)
  | list (items : List QueryLiteral)
  | object (fields : List (String × QueryLiteral))
  | variableRef (name : String)

namespace QueryLiteral

instance : Inhabited QueryLiteral := ⟨null⟩

def kindName : QueryLiteral → String
  | int _ => "IntValue"
  | float _ => "FloatValue"
  | string _ => "StringValue"
  | boolean _ => "BooleanValue"
  | null => "NullValue"
  | enum _ => "EnumValue"
  | list _ => "ListValue"
  | object _ => "ObjectValue"
  | variableRef _ => "Variable"

def ofFields (fields : List (String × QueryLiteral)) : QueryLiteral :=
  object (OrderedMap.ofList fields).entries

end QueryLiteral

inductive LiteralError
  | invalidNumber (lexeme : String)
  | unexpectedVariable
deriving DecidableEq

def LiteralError.message : LiteralError → String
  | invalidNumber lexeme => "\x60" ++ lexeme ++ "\x60 is not a valid number"
  | unexpectedVariable => (QueryLiteral.variableRef "").kindName ++ " is not supported"

namespace QueryLiteral

def coerceNumber (lexeme : String) : Except LiteralError Json :=
  match Json.readNumber? lexeme with
  | some value => .ok value
  | none => .error (.invalidNumber lexeme)

mutual

def coerce : QueryLiteral → Except LiteralError Json
  | int lexeme | float lexeme => coerceNumber lexeme
  | string value | enum value => .ok (.string value)
  | boolean value => .ok (.bool value)
  | null => .ok .null
  | list items => (coerceItems items).map .array
  | object fields => (coerceFields fields).map .ofMembers
  | variableRef _ => .error .unexpectedVariable

def coerceItems : List QueryLiteral → Except LiteralError (List Json)
  | [] => .ok []
  | item :: items => do
    let value ← item.coerce
    let values ← coerceItems items
    return value :: values

def coerceFields : List (String × QueryLiteral) → Except LiteralError (List (String × Json))
  | [] => .ok []
  | (name, literal) :: fields => do
    let value ← literal.coerce
    let values ← coerceFields fields
    return (name, value) :: values

end

end QueryLiteral

def Number.runtimeValue : Number → Json
  | int value => .int value.toInt
  | float value => .ofBinary64 value

mutual

/-- The value a schema literal stands for when requests run. An enum name becomes a string, and of
fields with one name the last counts, at the place of the first. -/
def Value.runtimeValue : Value → Json
  | .boolean value => .bool value
  | .enum name => .string name
  | .list items => .array (itemValues items)
  | .number value => value.runtimeValue
  | .object fields => .ofMembers (fieldValues fields)
  | .string value => .string value

def itemValues : List Value → List Json
  | [] => []
  | item :: items => item.runtimeValue :: itemValues items

def fieldValues : List (String × Value) → List (String × Json)
  | [] => []
  | (name, value) :: fields => (name, value.runtimeValue) :: fieldValues fields

end

end Schemata
