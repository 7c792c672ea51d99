import Schemata.Json.Record

namespace Schemata

open Json (record? required? optional? defaulted? string? object? array? list?)

structure Request where
  query : String
  rootValue : Json
  variableValues : List (String × Json)
  operationName : Option String
deriving DecidableEq

namespace Request

def ofQuery (query : String) : Request := ⟨query, .null, [], none⟩

def toJson (r : Request) : Json :=
  .object ([("query", .string r.query), ("rootValue", r.rootValue), ("variables", .object r.variableValues)]
    ++ r.operationName.toList.map fun name => ("operationName", .string name))

def ofJson? (j : Json) : Option Request := do
  let [query, rootValue, variableValues, operationName] ←
    j.record? ["query", "rootValue", "variables", "operationName"] 1 | none
  return ⟨← required? string? query, rootValue.getD .null, ← defaulted? [] object? variableValues,
    ← optional? string? operationName⟩

end Request

structure ErrorDescriptor where
  message : String
  path : List Json
deriving DecidableEq

namespace ErrorDescriptor

def toJson (e : ErrorDescriptor) : Json :=
  .object (("message", .string e.message) :: if e.path.isEmpty then [] else [("path", .array e.path)])

def ofJson? (j : Json) : Option ErrorDescriptor := do
  let [message, path] ← j.record? ["message", "path"] 1 | none
  return ⟨← required? string? message, ← defaulted? [] array? path⟩

end ErrorDescriptor

structure Result where
  data : Option (List (String × Json))
  errors : Option (List ErrorDescriptor)
deriving DecidableEq

namespace Result

def ofData (data : List (String × Json)) : Result := ⟨some data, none⟩

def ofErrors (errors : List ErrorDescriptor) : Result := ⟨none, some errors⟩

def isOk (r : Result) : Bool := (r.errors.getD []).isEmpty

def toJson (r : Result) : Json :=
  .object (r.data.toList.map (fun data => ("data", .object data))
    ++ r.errors.toList.map fun errors => ("errors", .array (errors.map ErrorDescriptor.toJson)))

def ofJson? (j : Json) : Option Result := do
  let [data, errors] ← j.record? ["data", "errors"] 0 | none
  return ⟨← optional? object? data, ← optional? (list? ErrorDescriptor.ofJson?) errors⟩

end Result

end Schemata
