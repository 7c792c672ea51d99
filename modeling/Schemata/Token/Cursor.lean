import Schemata.SyntaxError
import Schemata.Text.Blank
import Schemata.Token.Pattern

namespace Schemata

structure Cursor where
  consumed : List Char
  rest : List Char
deriving DecidableEq

namespace Cursor

def ofSource (source : List Char) : Cursor := ⟨[], source⟩

def source (c : Cursor) : List Char := c.consumed ++ c.rest

def offset (c : Cursor) : Nat := Text.byteLength c.consumed

def position (c : Cursor) : Position := Position.after c.consumed

def advance (c : Cursor) (n : Nat) : Cursor := ⟨c.consumed ++ c.rest.take n, c.rest.drop n⟩

def significant (c : Cursor) : Cursor := c.advance (c.rest.takeWhile Text.isSeparator).length

def isAtEnd (c : Cursor) : Bool := c.significant.rest.isEmpty

def peek? (c : Cursor) : Option Char := c.significant.rest.head?

def take (c : Cursor) (text : List Char) : String × Cursor :=
  (String.ofList text, c.significant.advance text.length)

def literal? (c : Cursor) (text : String) : Option (String × Cursor) :=
  if text.toList <+: c.significant.rest then some (c.take text.toList) else none

def keyword? (c : Cursor) (word : String) : Option (String × Cursor) :=
  if word.toList <+: c.significant.rest ∧
      ¬((c.significant.rest.drop word.toList.length).head?.any isNameContinue) then
    some (c.take word.toList)
  else none

def pattern? (c : Cursor) (p : Pattern) : Option (String × Cursor) :=
  (p.split? c.significant.rest).map fun q => c.take q.1

def error (c : Cursor) (kind : SyntaxErrorKind) (message : String) : SyntaxError :=
  SyntaxError.atPosition c.source c.significant.position kind message

def expectedError (c : Cursor) (expected : String) : SyntaxError :=
  let found := c.peek?.map String.singleton
  let shown := match found with
    | some s => "\"" ++ s ++ "\""
    | none => "end of input"
  c.error (.expectedToken expected found) ("Expected " ++ expected ++ " but got " ++ shown)

def required {α : Type} (c : Cursor) (value : Option α) (expected : String) : Except SyntaxError α :=
  match value with
  | some a => .ok a
  | none => .error (c.expectedError expected)

def expect (c : Cursor) (text : String) : Except SyntaxError (String × Cursor) :=
  c.required (c.literal? text) ("\"" ++ text ++ "\"")

end Cursor

end Schemata
