import Schemata.Text.Position

namespace Schemata

abbrev Place := List String

def pathParts (path : String) : List String := (Text.pieces '/' path.toList).map String.ofList

namespace Place

def next (place : Place) (part : String) : Place :=
  if part = "" ∨ part = "." then place else if part = ".." then place.dropLast else place ++ [part]

def through (place : Place) : List String → List Place
  | [] => []
  | part :: parts => place.next part :: (place.next part).through parts

end Place

def pathBelow (directory : String) (names : List String) : String :=
  let separator := if directory.toList.getLast? = some '/' then "" else "/"
  directory ++ separator ++ "/".intercalate names

def fileExtension? (path : String) : Option String :=
  match (Text.pieces '.' ((pathParts path).getLast?.getD "").toList).reverse with
  | last :: before => if before = [] ∨ before = [[]] then none else String.ofList last
  | [] => none

end Schemata
