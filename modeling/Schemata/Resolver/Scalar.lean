import Schemata.Literal

namespace Schemata

inductive ScalarError
  | invalid (message : String)
  | literal (error : LiteralError)
deriving DecidableEq

def ScalarError.text : ScalarError → String
  | invalid message => message
  | literal error => error.message

structure ScalarImplementation where
  parseLiteral? : Option (QueryLiteral → Except ScalarError Json) := none
  parseValue? : Option (Json → Except ScalarError Json) := none
  serialize? : Option (Json → Except ScalarError Json) := none

namespace ScalarImplementation

def identity : ScalarImplementation := ⟨none, none, none⟩

def serialize (s : ScalarImplementation) (value : Json) : Except ScalarError Json :=
  match s.serialize? with
  | some f => f value
  | none => .ok value

def parseValue (s : ScalarImplementation) (value : Json) : Except ScalarError Json :=
  match s.parseValue? with
  | some f => f value
  | none => .ok value

def parseLiteral (s : ScalarImplementation) (literal : QueryLiteral) : Except ScalarError Json :=
  match s.parseLiteral? with
  | some f => f literal
  | none => do
    let value ← literal.coerce.mapError .literal
    s.parseValue value

def summary (s : ScalarImplementation) : String :=
  "ScalarImplementation \x7b parse_literal: " ++ toString s.parseLiteral?.isSome ++ ", parse_value: "
    ++ toString s.parseValue?.isSome ++ ", serialize: " ++ toString s.serialize?.isSome ++ " \x7d"

end ScalarImplementation

end Schemata
