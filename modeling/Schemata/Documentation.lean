import Schemata.Document.Basic
import Schemata.Text.Blank
/-!
Documentation of schema items. Comment lines wait for the item they document; the indentation they
share is removed.
-/

namespace Schemata

structure DocLines where
  lines : List String
deriving DecidableEq

namespace DocLines

def empty : DocLines := ⟨[]⟩

def push (d : DocLines) (comment : Comment) : DocLines := ⟨d.lines ++ [comment.content]⟩

def isEmpty (d : DocLines) : Bool := d.lines.isEmpty

def isBlank (line : String) : Bool := line.toList.all Text.isWhiteSpace

def indentation (line : String) : Nat := (line.toList.takeWhile Text.isWhiteSpace).length

def sharedIndentation? (d : DocLines) : Option Nat :=
  ((d.lines.filter fun line => !isBlank line).map indentation).min?

def dedentLine (n : Nat) (line : String) : String :=
  if isBlank line then "" else String.ofList (line.toList.drop n)

def description? (d : DocLines) : Option String :=
  d.sharedIndentation?.map fun n => "\n".intercalate (d.lines.map (dedentLine n))

def take (d : DocLines) : Option String × DocLines := (d.description?, empty)

def discard (_ : DocLines) : DocLines := empty

end DocLines

end Schemata
