import Schemata.Json.Basic

namespace Schemata.Json

/-- The fields of a record by position. An array has at least the first `least` of them, and in an
object any may be absent. -/
def record? (names : List String) (least : Nat) : Json → Option (List (Option Json))
  | object members => some (names.map fun name => members.lookup name)
  | array items =>
    if least ≤ items.length ∧ items.length ≤ names.length then
      some (items.map some ++ List.replicate (names.length - items.length) none)
    else none
  | _ => none

def alternative? : Json → Option (String × Json)
  | object [(name, content)] => some (name, content)
  | _ => none

variable {α : Type}

def required? (read : Json → Option α) : Option Json → Option α
  | some j => read j
  | none => none

def optional? (read : Json → Option α) : Option Json → Option (Option α)
  | none | some null => some none
  | some j => (read j).map some

def defaulted? (fallback : α) (read : Json → Option α) : Option Json → Option α
  | none => some fallback
  | some j => read j

def string? : Json → Option String
  | string s => some s
  | _ => none

def bool? : Json → Option Bool
  | bool b => some b
  | _ => none

def array? : Json → Option (List Json)
  | array items => some items
  | _ => none

def object? : Json → Option (List (String × Json))
  | object members => some members
  | _ => none

def list? (read : Json → Option α) (j : Json) : Option (List α) := do
  let items ← j.array?
  items.mapM read

mutual

def depth : Json → Nat
  | array items => itemDepth items + 1
  | object members => memberDepth members + 1
  | null | bool _ | int _ | float _ | string _ => 0

def itemDepth : List Json → Nat
  | [] => 0
  | item :: items => max item.depth (itemDepth items)

def memberDepth : List (String × Json) → Nat
  | [] => 0
  | (_, value) :: members => max value.depth (memberDepth members)

end

end Schemata.Json
