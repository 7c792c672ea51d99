import Schemata.Execution.Request
import Schemata.Generation.Basic

namespace Schemata

abbrev Engine := Registry → Request → Result

structure ExecutableSchema where
  registry : Registry
  engine : Engine
  hasQuery : registry.query?.isSome

namespace ExecutableSchema

def ofRegistry (r : Registry) (engine : Engine) : Generated ExecutableSchema :=
  if h : r.query?.isSome then .ok ⟨r, engine, h⟩ else .error .noQueryType

def ofText (m : Implementations) (engine : Engine) (source : String) : Generated ExecutableSchema := do
  let r ← generateFromText m source
  ofRegistry r engine

def run (s : ExecutableSchema) (request : Request) : Result := s.engine s.registry request

end ExecutableSchema

end Schemata
