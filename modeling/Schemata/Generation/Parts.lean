import Schemata.Documentation
import Schemata.Generation.Scope
import Schemata.Resolver.Implementations

namespace Schemata

structure Context where
  scope : Scope
  implementations : Implementations

abbrev Generated := Except GenerateError

abbrev Documenting (α : Type) := DocLines → Generated (α × DocLines)

variable {α β : Type}

/-- Builds the named items of a list in their order, each with the description the waiting lines give.
Comments wait for the item behind them, and at the end of the list what waits is discarded. A name that
stands there already is an error, noticed before the item is built. -/
def collectFrom (name : α → String) (duplicate : String → GenerateError)
    (build : Option String → α → Documenting β) (built : OrderedMap β) :
    List (Member α) → Documenting (OrderedMap β)
  | [], lines => .ok (built, lines.discard)
  | .comment c :: members, lines => collectFrom name duplicate build built members (lines.push c)
  | .item a :: members, lines => do
    let (description, lines) := lines.take
    if built.contains (name a) then throw (duplicate (name a))
    let (b, lines) ← build description a lines
    collectFrom name duplicate build (built.insert (name a) b) members lines

def collect (name : α → String) (duplicate : String → GenerateError)
    (build : Option String → α → Documenting β) : List (Member α) → Documenting (OrderedMap β) :=
  collectFrom name duplicate build .empty

namespace Context

def inputValue (c : Context) (description : Option String) (v : InputValueDefinition) :
    Documenting InputValue := fun lines => do
  let type ← c.scope.resolve .input v.type
  return (⟨v.name, description, type, v.defaultValue.map Value.runtimeValue⟩, lines)

def inputValues (c : Context) (duplicate : String → GenerateError)
    (members : List (Member InputValueDefinition)) : Documenting (OrderedMap InputValue) :=
  collect InputValueDefinition.name duplicate c.inputValue members

def fieldResolver (c : Context) (type : String) (f : FieldDefinition) :
    Generated (Option BoundFieldResolver) :=
  match c.implementations.fieldResolver? type f.name with
  | some resolver => .ok (some ⟨type, f.name, resolver⟩)
  | none => if f.isCalculated then .error (.missingFieldImplementation type f.name) else .ok none

def arguments (c : Context) (type : String) (f : FieldDefinition) :
    Documenting (Option (OrderedMap InputValue)) := fun lines =>
  match f.arguments with
  | none => .ok (none, lines)
  | some members => do
    let (arguments, lines) ← c.inputValues (.duplicateArgument type f.name) members lines
    return (some arguments, lines)

def interfaceField (c : Context) (type : String) (description : Option String) (f : FieldDefinition) :
    Documenting Field := fun lines => do
  let (arguments, lines) ← c.arguments type f lines
  let annotation ← c.scope.resolve .output f.type
  return (⟨f.name, description, annotation, arguments, none⟩, lines)

def objectField (c : Context) (type : String) (description : Option String) (f : FieldDefinition) :
    Documenting Field := fun lines => do
  let (arguments, lines) ← c.arguments type f lines
  let resolver ← c.fieldResolver type f
  let annotation ← c.scope.resolve .output f.type
  return (⟨f.name, description, annotation, arguments, resolver⟩, lines)

def interfaceFields (c : Context) (type : String) (members : List (Member FieldDefinition)) :
    Documenting (OrderedMap Field) :=
  collect FieldDefinition.name (.duplicateField type) (c.interfaceField type) members

def objectFields (c : Context) (type : String) (members : List (Member FieldDefinition)) :
    Documenting (OrderedMap Field) :=
  collect FieldDefinition.name (.duplicateField type) (c.objectField type) members

def checkInterface (c : Context) (name : String) : Generated Unit :=
  if c.scope.kind? name = some .interface then .ok () else .error (.undefinedInterface name)

def interfaces (c : Context) (names : List String) : Generated (List NamedRef) := do
  names.forM c.checkInterface
  return names.eraseDups.map fun name => ⟨name, .interface⟩

/-- What stands for an enum value: what is provided for it, or its own name if nothing is provided
for the whole enum. -/
def runtimeValue (c : Context) (enum value : String) : Generated Json :=
  match c.implementations.enumValues? enum with
  | none => .ok (.string value)
  | some values =>
    match values.get? value with
    | some j => .ok j
    | none => .error (.incompleteEnumImplementation enum value)

def enumValue (c : Context) (enum : String) (description : Option String) (name : String) :
    Documenting EnumValue := fun lines => do
  return (⟨name, description, ← c.runtimeValue enum name⟩, lines)

def enumValues (c : Context) (enum : String) (members : List (Member String)) :
    Documenting (OrderedMap EnumValue) :=
  collect id (.duplicateEnumValue enum) (c.enumValue enum) members

def checkMember (c : Context) (union name : String) : Generated Unit :=
  match c.scope.kind? name with
  | some .object => .ok ()
  | some kind => .error (.invalidUnionMember union name kind)
  | none => .error (.undefinedType name)

def unionMembers (c : Context) (union : String) (names : List String) : Generated (OrderedMap NamedRef) :=
  names.foldlM (fun members name => do
    c.checkMember union name
    if members.contains name then throw (.duplicateUnionMember union name)
    return members.insert name ⟨name, .object⟩) .empty

def typeResolver (c : Context) (type : String) : Option BoundTypeResolver :=
  (c.implementations.typeResolver? type).map fun resolver => ⟨type, resolver⟩

end Context

end Schemata
