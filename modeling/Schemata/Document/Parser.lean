import Schemata.Document.Basic
import Schemata.Document.Nesting
import Schemata.Token.Basic
import Schemata.Token.Cursor
/-!
Reading documents. The reader works on the tokens of a source: each part takes the tokens it needs
and hands on the others, and the first token that fits nowhere ends the reading. `parse` turns the
place of that token into an error with its position.
-/

namespace Schemata

inductive Cause
  | expected (what : String)
  | notExtendable
  | invalidDefinition
  | nestedTooDeep
deriving DecidableEq

/-- A cause, the tokens from the place where it arose, and how many types and values are open there. -/
structure Failure where
  cause : Cause
  input : List Token
  depth : Nat := 0
deriving DecidableEq

abbrev Reading := Except Failure

abbrev Reader (α : Type) := List Token → Reading (α × List Token)

abbrev OptionalReader (α : Type) := List Token → Reading (Option (α × List Token))

namespace Parser

variable {α : Type}

def fail {β : Type} (cause : Cause) (input : List Token) : Reading β := .error { cause, input }

def require (cause : Cause) (read : OptionalReader α) : Reader α := fun input => do
  match ← read input with
  | some r => return r
  | none => fail cause input

/-- Reads items until one is missing. An item takes at least one token, or it is the last one. -/
def many (item : OptionalReader α) (input : List Token) : Reading (List α × List Token) :=
  match item input with
  | .error e => .error e
  | .ok none => .ok ([], input)
  | .ok (some (a, rest)) =>
    if rest.length < input.length then do
      let (as, rest) ← many item rest
      return (a :: as, rest)
    else .ok ([a], rest)
termination_by input.length

def punctuator? (c : Char) : List Token → Option (List Token)
  | .punctuator d :: rest => if d = c then some rest else none
  | _ => none

def expect (c : Char) (input : List Token) : Reading (List Token) :=
  match punctuator? c input with
  | some rest => .ok rest
  | none => fail (.expected ("\"" ++ String.singleton c ++ "\"")) input

def name? : List Token → Option (String × List Token)
  | .name text :: rest => some (text, rest)
  | _ => none

def expectName (what : String) : Reader String := fun input =>
  match name? input with
  | some r => .ok r
  | none => fail (.expected what) input

def member (item : OptionalReader α) : OptionalReader (Member α)
  | .comment text :: rest => .ok (some (.comment ⟨text⟩, rest))
  | input => return (← item input).map fun r => (.item r.1, r.2)

def body (item : OptionalReader α) : Reader (List (Member α)) := fun input => do
  let input ← expect '{' input
  let (members, input) ← many (member item) input
  return (members, ← expect '}' input)

def bang (t : TypeRef) (input : List Token) : TypeRef × List Token :=
  match punctuator? '!' input with
  | some rest => (.nonNull t, rest)
  | none => (t, input)

def nested (read : OptionalReader α) : OptionalReader α := fun input =>
  (read input).mapError fun f => { f with depth := f.depth + 1 }

/-- A type that may nest `levels` deep. The level is counted before the input is looked at. -/
def type? : (levels : Nat) → OptionalReader TypeRef
  | 0 => fail .nestedTooDeep
  | levels + 1 => nested fun input =>
    match input with
    | .name text :: rest => .ok (some (bang (.named text) rest))
    | .punctuator '[' :: rest => do
      let (inner, rest) ← require (.expected "Type") (type? levels) rest
      return some (bang (.list inner) (← expect ']' rest))
    | _ => .ok none

def expectType : Reader TypeRef := fun input =>
  require (.expected "type") (type? maxLevels) input

def objectField (value : OptionalReader Value) : OptionalReader (String × Value) := fun input =>
  match name? input with
  | none => .ok none
  | some (name, rest) => do
    let rest ← expect ':' rest
    let (v, rest) ← require (.expected "Value") value rest
    return some ((name, v), rest)

def value? : (levels : Nat) → OptionalReader Value
  | 0 => fail .nestedTooDeep
  | levels + 1 => nested fun input =>
    match input with
    | .number text :: rest =>
      match Number.read? text with
      | some n => .ok (some (.number n, rest))
      | none => fail (.expected Pattern.number.description) rest
    | .string text :: rest => .ok (some (.string (String.ofList (unquote text.toList)), rest))
    | .name text :: rest =>
      .ok (some (if text = "true" then .boolean true else if text = "false" then .boolean false
        else .enum text, rest))
    | .punctuator '[' :: rest => do
      let (members, rest) ← many (member (value? levels)) rest
      return some (.list (items members), ← expect ']' rest)
    | .punctuator '{' :: rest => do
      let (members, rest) ← many (member (objectField (value? levels))) rest
      return some (.object (items members), ← expect '}' rest)
    | _ => .ok none

def expectValue : Reader Value := fun input =>
  require (.expected "Value") (value? maxLevels) input

def inputValue : OptionalReader InputValueDefinition := fun input =>
  match name? input with
  | none => .ok none
  | some (name, rest) => do
    let (type, rest) ← expectType (← expect ':' rest)
    match punctuator? '=' rest with
    | none => return some (⟨name, type, none⟩, rest)
    | some rest =>
      let (value, rest) ← expectValue rest
      return some (⟨name, type, some value⟩, rest)

def arguments : Reader (Option (List (Member InputValueDefinition))) := fun input =>
  match punctuator? '(' input with
  | none => .ok (none, input)
  | some rest => do
    let (members, rest) ← many (member inputValue) rest
    return (some members, ← expect ')' rest)

def field : OptionalReader FieldDefinition := fun input =>
  match name? input with
  | none => .ok none
  | some (name, rest) => do
    let (arguments, rest) ← arguments rest
    let (type, rest) ← expectType (← expect ':' rest)
    return some (⟨name, arguments, type⟩, rest)

def anotherInterface : OptionalReader String := fun input =>
  match punctuator? '&' input with
  | some rest => return some (← expectName Pattern.name.description rest)
  | none => .ok (name? input)

def interfaces : Reader (List String) := fun input =>
  match input with
  | .name "implements" :: rest => do
    let (first, rest) ← require (.expected Pattern.name.description) anotherInterface rest
    let (others, rest) ← many anotherInterface rest
    return (first :: others, rest)
  | _ => .ok ([], input)

def objectDefinition : Reader ObjectDefinition := fun input => do
  let (name, input) ← expectName Pattern.name.description input
  let (interfaces, input) ← interfaces input
  let (fields, input) ← body field input
  return (⟨name, interfaces, fields⟩, input)

def interfaceDefinition : Reader InterfaceDefinition := fun input => do
  let (name, input) ← expectName Pattern.name.description input
  let (fields, input) ← body field input
  return (⟨name, fields⟩, input)

def anotherMember : OptionalReader String := fun input =>
  match punctuator? '|' input with
  | some rest => return some (← expectName "NamedType" rest)
  | none => .ok none

def unionDefinition : Reader UnionDefinition := fun input => do
  let (name, input) ← expectName Pattern.name.description input
  let (first, input) ← expectName "NamedType" (← expect '=' input)
  let (others, input) ← many anotherMember input
  return (⟨name, first :: others⟩, input)

def enumDefinition : Reader EnumDefinition := fun input => do
  let (name, input) ← expectName Pattern.name.description input
  let (values, input) ← body (fun input => .ok (name? input)) input
  return (⟨name, values⟩, input)

def inputObjectDefinition : Reader InputObjectDefinition := fun input => do
  let (name, input) ← expectName Pattern.name.description input
  let (fields, input) ← body inputValue input
  return (⟨name, fields⟩, input)

def extensionDefinition : Reader ObjectDefinition
  | .name "type" :: rest => objectDefinition rest
  | input => fail .notExtendable input

def scalarDefinition : Reader ScalarDefinition := fun input => do
  let (name, input) ← expectName Pattern.name.description input
  return (⟨name⟩, input)

def defining (make : α → TypeDefinition) (read : Reader α) : OptionalReader TypeDefinition := fun input =>
  (read input).map fun r => some (make r.1, r.2)

def definition : OptionalReader TypeDefinition := fun input =>
  match input with
  | .name "type" :: rest => defining .object objectDefinition rest
  | .name "interface" :: rest => defining .interface interfaceDefinition rest
  | .name "union" :: rest => defining .union unionDefinition rest
  | .name "scalar" :: rest => defining .scalar scalarDefinition rest
  | .name "enum" :: rest => defining .enum enumDefinition rest
  | .name "input" :: rest => defining .inputObject inputObjectDefinition rest
  | .name "extend" :: rest => defining .extension extensionDefinition rest
  | _ => .ok none

def document (input : List Token) : Reading Document := do
  let (definitions, rest) ← many (member definition) input
  if rest.isEmpty then return ⟨definitions⟩ else fail .invalidDefinition rest

end Parser

def Cause.error (cause : Cause) (c : Cursor) : SyntaxError :=
  match cause with
  | expected what => c.expectedError what
  | notExtendable => (c.expectedError "ObjectTypeDefinition").addNote "only object types can be extended"
  | invalidDefinition => c.error .invalidDefinition
      "invalid definition (must be either a type, interface, union, scalar, enum, input or extend)"
  | nestedTooDeep => (c.error .recursionLimitExceeded "maximum nesting depth exceeded").addNote
      ("types and values may be nested at most " ++ toString maxLevels ++ " levels deep")

def Document.ofLexed (l : Lexed) : Reading Document := do
  let d ← Parser.document l.tokens
  if l.rest.isEmpty then return d else Parser.fail .invalidDefinition []

def parse (source : String) : Except SyntaxError Document :=
  let l := lex source.toList
  (Document.ofLexed l).mapError fun f =>
    let input := l.inputBefore f.input.length
    f.cause.error ⟨source.toList.take (source.toList.length - input.length), input⟩

end Schemata
