import Schemata.Text.Excerpt

namespace Schemata

inductive SyntaxErrorKind
  | expectedToken (expected : String) (found : Option String)
  | invalidDefinition
  | recursionLimitExceeded
deriving DecidableEq

def SyntaxErrorKind.text : SyntaxErrorKind → String
  | expectedToken expected found => "expected " ++ expected ++ ", found " ++ found.getD "end of input"
  | invalidDefinition => "invalid definition"
  | recursionLimitExceeded => "maximum nesting depth exceeded"

structure SyntaxError where
  message : String
  kind : SyntaxErrorKind
  position : Position
  excerpt : String
  notes : List String
deriving DecidableEq

namespace SyntaxError

def atPosition (source : List Char) (p : Position) (kind : SyntaxErrorKind) (message : String) :
    SyntaxError :=
  ⟨message, kind, p, Text.excerpt source p, []⟩

def atOffset? (source : List Char) (offset : Nat) (kind : SyntaxErrorKind) (message : String) :
    Option SyntaxError :=
  (Position.ofOffset? source offset).map fun p => atPosition source p kind message

def addNote (e : SyntaxError) (note : String) : SyntaxError := { e with notes := e.notes ++ [note] }

def text (e : SyntaxError) : String := e.message ++ e.excerpt

def oneLine (e : SyntaxError) (file : String) : String :=
  file ++ ":" ++ toString (e.position.line + 1) ++ ":" ++ toString (e.position.col + 1) ++ ": error: "
    ++ e.message

def noteLine (note : String) : String := "    = note: " ++ note ++ "\n"

def detailed (e : SyntaxError) (file : String) : String :=
  e.oneLine file ++ e.excerpt ++ String.join (e.notes.map noteLine)

end SyntaxError

end Schemata
