import Schemata.Text.Position

namespace Schemata.Text

def trimReturns (line : List Char) : List Char := (line.reverse.dropWhile (· == '\r')).reverse

def lineText (source : List Char) (line : Nat) : String :=
  String.ofList (trimReturns ((pieces '\n' source)[line]?.getD []))

def spaces (n : Nat) : String := String.ofList (List.replicate n ' ')

def excerpt (source : List Char) (p : Position) : String :=
  let before := if p.line = 0 then "" else lineText source (p.line - 1)
  "\n\n" ++ spaces 4 ++ before ++ "\n" ++ spaces 4 ++ lineText source p.line ++ "\n"
    ++ spaces (4 + p.col) ++ "^\n" ++ spaces 4 ++ lineText source (p.line + 1) ++ "\n"

end Schemata.Text
