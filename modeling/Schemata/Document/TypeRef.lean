
namespace Schemata

inductive TypeRef
  | named (name : String)
  | list (inner : TypeRef)
  | nonNull (inner : TypeRef)
deriving DecidableEq

namespace TypeRef

instance : Inhabited TypeRef := ⟨named ""⟩

def innermostName : TypeRef → String
  | named name => name
  | list inner => inner.innermostName
  | nonNull inner => inner.innermostName

def text : TypeRef → String
  | named name => name
  | list inner => "[" ++ inner.text ++ "]"
  | nonNull inner => inner.text ++ "!"

end TypeRef

end Schemata
