import Schemata.Document.TypeRef
import Schemata.Document.Value

namespace Schemata

def maxLevels : Nat := 64

def TypeRef.levels : TypeRef → Nat
  | named _ => 1
  | list inner => inner.levels + 1
  | nonNull inner => inner.levels

mutual

def Value.levels : Value → Nat
  | .list items => itemLevels items + 1
  | .object fields => fieldLevels fields + 1
  | .boolean _ | .enum _ | .number _ | .string _ => 1

def itemLevels : List Value → Nat
  | [] => 0
  | item :: items => max item.levels (itemLevels items)

def fieldLevels : List (String × Value) → Nat
  | [] => 0
  | (_, value) :: fields => max value.levels (fieldLevels fields)

end

end Schemata
