import Schemata.Document.Parser
import Schemata.Proofs.Token.Bytes
/-!
Reading by moving through the bytes of a text. All that changes is an offset and the number of types and values that
are open. A run stops with a syntax error where one is due. Where a text is cut within a character, where more is
closed than has been opened, where a round of a loop ends no further on than it has begun, or where calls nest without
a bound, it crashes.
-/

namespace Schemata

open Text

inductive Crash
  | badCut (offset : Nat)
  | underflow
  | standstill
  | overflow

inductive Stop
  | failed (e : SyntaxError)
  | crashed (c : Crash)

structure MachineState where
  offset : Nat
  depth : Nat
  visited : List (Nat × Nat)

abbrev Machine (α : Type) : Type := List Char → MachineState → Except Stop α × MachineState

namespace Machine

variable {α β : Type}

protected def bind (m : Machine α) (f : α → Machine β) : Machine β := fun source s =>
  match m source s with
  | (.ok a, s) => f a source s
  | (.error stop, s) => (.error stop, s)

instance : Monad Machine where
  pure a := fun _ s => (.ok a, s)
  bind := Machine.bind

def stop (e : SyntaxError) : Machine α := fun _ s => (.error (.failed e), s)

def crash (c : Crash) : Machine α := fun _ s => (.error (.crashed c), s)

def andThen (m : Machine α) (last : Machine Unit) : Machine α := fun source s =>
  match m source s with
  | (result, s) =>
    match last source s with
    | (.ok _, s) => (result, s)
    | (.error stop, s) => (.error stop, s)

def sourceText : Machine (List Char) := fun source s => (.ok source, s)

def offset : Machine Nat := fun _ s => (.ok s.offset, s)

def depth : Machine Nat := fun _ s => (.ok s.depth, s)

def goTo (offset depth : Nat) : Machine Unit := fun _ s => (.ok (), ⟨offset, depth, (offset, depth) :: s.visited⟩)

def cut (text : List Char) (offset : Nat) : Machine (List Char × List Char) :=
  match splitAtByte? offset text with
  | some p => if offset ≤ byteLength text then pure p else crash (.badCut offset)
  | none => crash (.badCut offset)

/-! ### Scanning -/

def significantOffset : Machine Nat := do
  let here ← offset
  let (_, rest) ← cut (← sourceText) here
  return here + byteLength (rest.takeWhile isSeparator)

def remaining : Machine (List Char) := do
  let (_, rest) ← cut (← sourceText) (← significantOffset)
  return rest

def scan (measure : List Char → Option Nat) : Machine (Option String) := do
  let rest ← remaining
  match measure rest with
  | none => return none
  | some length =>
    let (text, _) ← cut rest length
    goTo ((← significantOffset) + length) (← depth)
    return some (String.ofList text)

def pattern (p : Pattern) : Machine (Option String) := scan p.matchLength?

def literal (c : Char) : Machine (Option String) :=
  scan fun rest => if rest.head? = some c then some c.utf8Size else none

def keyword (word : String) : Machine (Option String) := scan fun rest =>
  let length := byteLength word.toList
  if word.toList <+: rest ∧ (bytes rest)[length]?.all (!isNameContinue ·) then some length else none

def fail (cause : Cause) : Machine α := do
  let (before, rest) ← cut (← sourceText) (← significantOffset)
  stop (cause.error ⟨before, rest⟩)

def required (what : String) : Option α → Machine α
  | some a => pure a
  | none => fail (.expected what)

def require (what : String) (read : Machine (Option α)) : Machine α := do required what (← read)

def expect (c : Char) : Machine String := require ("\"" ++ String.singleton c ++ "\"") (literal c)

def name : Machine (Option String) := pattern .name

def expectName (what : String) : Machine String := require what name

/-! ### Choices -/

def whenFound (m : Machine (Option α)) (f : α → Machine β) : Machine (Option β) := do
  match ← m with
  | none => return none
  | some a => return some (← f a)

def firstOf : List (Machine (Option α)) → Machine (Option α)
  | [] => return none
  | m :: others => do
    match ← m with
    | some a => return some a
    | none => firstOf others

/-! ### Loops -/

/-- A loop that collects what its rounds find, until one finds nothing. Each round has to bring the offset forward
within the source. -/
def gather (round : List α → Machine (Option α)) (found : List α) : Machine (List α) := fun source s =>
  match round found source s with
  | (.error stop, s') => (.error stop, s')
  | (.ok none, s') => (.ok found, s')
  | (.ok (some a), s') =>
    if s.offset < s'.offset ∧ s'.offset ≤ byteLength source then gather round (found ++ [a]) source s'
    else crash .standstill source s'
termination_by source s => byteLength source - s.offset

def member (item : Machine (Option α)) : Machine (Option (Member α)) := do
  match ← pattern .comment with
  | some text => return some (.comment ⟨text⟩)
  | none => return (← item).map .item

def members (item : Machine (Option α)) : Machine (List (Member α)) := gather (fun _ => member item) []

def body (item : Machine (Option α)) : Machine (List (Member α)) := do
  let _ ← expect '{'
  let found ← members item
  let _ ← expect '}'
  return found

/-! ### Types and values -/

def enter : Machine Unit := do
  let opened := (← depth) + 1
  if maxLevels < opened then fail .nestedTooDeep else goTo (← offset) opened

def leave : Machine Unit := do
  match ← depth with
  | 0 => crash .underflow
  | opened + 1 => goTo (← offset) opened

def nested (read : Machine α) : Machine α := do
  enter
  read.andThen leave

def bang (t : TypeRef) : Machine TypeRef := do
  match ← literal '!' with
  | some _ => return .nonNull t
  | none => return t

def typeAround (inner : Machine (Option TypeRef)) : Machine (Option TypeRef) := firstOf [
  whenFound name fun name => bang (.named name),
  whenFound (literal '[') fun _ => do
    let item ← require "Type" inner
    let _ ← expect ']'
    bang (.list item)]

def type : Nat → Machine (Option TypeRef)
  | 0 => crash .overflow
  | calls + 1 => nested (typeAround (type calls))

def maxCalls : Nat := maxLevels + 1

def expectType : Machine TypeRef := require "type" (type maxCalls)

def numberValue (lexeme : String) : Machine Value := do
  return .number (← required Pattern.number.description (Number.read? lexeme))

def stringValue (lexeme : String) : Machine Value := do
  let (front, _) ← cut lexeme.toList (byteLength lexeme.toList - 1)
  let (_, inner) ← cut front 1
  return .string (String.ofList (unescape inner))

def objectField (value : Machine (Option Value)) : Machine (Option (String × Value)) := whenFound name fun name => do
  let _ ← expect ':'
  return (name, ← require "Value" value)

def listValue (inner : Machine (Option Value)) : Machine Value := do
  let found ← members inner
  let _ ← expect ']'
  return .list (items found)

def objectValue (inner : Machine (Option Value)) : Machine Value := do
  let found ← members (objectField inner)
  let _ ← expect '}'
  return .object (items found)

def valueAround (inner : Machine (Option Value)) : Machine (Option Value) := firstOf [
  whenFound (pattern .number) numberValue,
  whenFound (pattern .string) stringValue,
  whenFound (keyword "true") fun _ => return .boolean true,
  whenFound (keyword "false") fun _ => return .boolean false,
  whenFound name fun name => return .enum name,
  whenFound (literal '[') fun _ => listValue inner,
  whenFound (literal '{') fun _ => objectValue inner]

def value : Nat → Machine (Option Value)
  | 0 => crash .overflow
  | calls + 1 => nested (valueAround (value calls))

def expectValue : Machine Value := require "Value" (value maxCalls)

/-! ### Definitions -/

def inputValue : Machine (Option InputValueDefinition) := whenFound name fun name => do
  let _ ← expect ':'
  let type ← expectType
  return ⟨name, type, ← whenFound (literal '=') fun _ => expectValue⟩

def arguments : Machine (Option (List (Member InputValueDefinition))) := whenFound (literal '(') fun _ => do
  let found ← members inputValue
  let _ ← expect ')'
  return found

def field : Machine (Option FieldDefinition) := whenFound name fun name => do
  let arguments ← arguments
  let _ ← expect ':'
  return ⟨name, arguments, ← expectType⟩

def anotherInterface (found : List String) : Machine (Option String) := do
  let ampersand ← literal '&'
  let name ← name
  if name.isNone ∧ !found.isEmpty ∧ ampersand.isNone then return none
  else return some (← required Pattern.name.description name)

def interfaces : Machine (List String) := do
  return (← whenFound (keyword "implements") fun _ => gather anotherInterface []).getD []

def objectDefinition : Machine (Option ObjectDefinition) := whenFound (keyword "type") fun _ => do
  let name ← expectName Pattern.name.description
  let interfaces ← interfaces
  return ⟨name, interfaces, ← body field⟩

def interfaceDefinition : Machine (Option InterfaceDefinition) := whenFound (keyword "interface") fun _ => do
  let name ← expectName Pattern.name.description
  return ⟨name, ← body field⟩

def anotherMember : Machine (Option String) := whenFound (literal '|') fun _ => expectName "NamedType"

def unionDefinition : Machine (Option UnionDefinition) := whenFound (keyword "union") fun _ => do
  let name ← expectName Pattern.name.description
  let _ ← expect '='
  let first ← expectName "NamedType"
  return ⟨name, ← gather (fun _ => anotherMember) [first]⟩

def scalarDefinition : Machine (Option ScalarDefinition) := whenFound (keyword "scalar") fun _ => do
  return ⟨← expectName Pattern.name.description⟩

def enumDefinition : Machine (Option EnumDefinition) := whenFound (keyword "enum") fun _ => do
  let name ← expectName Pattern.name.description
  return ⟨name, ← body Machine.name⟩

def inputObjectDefinition : Machine (Option InputObjectDefinition) := whenFound (keyword "input") fun _ => do
  let name ← expectName Pattern.name.description
  return ⟨name, ← body inputValue⟩

def extensionDefinition : Machine (Option ObjectDefinition) := whenFound (keyword "extend") fun _ => do
  match ← objectDefinition with
  | some o => return o
  | none => fail .notExtendable

def definition : Machine (Option TypeDefinition) := firstOf [
  whenFound objectDefinition fun d => return .object d,
  whenFound interfaceDefinition fun d => return .interface d,
  whenFound unionDefinition fun d => return .union d,
  whenFound scalarDefinition fun d => return .scalar d,
  whenFound enumDefinition fun d => return .enum d,
  whenFound inputObjectDefinition fun d => return .inputObject d,
  whenFound extensionDefinition fun d => return .extension d]

def document : Machine Document := do
  let definitions ← members definition
  if (← remaining).isEmpty then return ⟨definitions⟩ else fail .invalidDefinition

def run (source : List Char) : Except Stop Document × MachineState := document source ⟨0, 0, [(0, 0)]⟩

end Machine

end Schemata
