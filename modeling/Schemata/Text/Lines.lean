import Schemata.Text.Position

namespace Schemata.Text

def dropReturn (line : List Char) : List Char :=
  if line.getLast? = some '\r' then line.dropLast else line

/-- A newline ends a line, with a carriage return before it if there is one. What follows the last
newline is a line only if it is not empty. -/
def endedLines : List (List Char) → List (List Char)
  | [] => []
  | [last] => if last.isEmpty then [] else [last]
  | line :: rest => dropReturn line :: endedLines rest

def lines (text : String) : List String := (endedLines (pieces '\n' text.toList)).map String.ofList

end Schemata.Text
