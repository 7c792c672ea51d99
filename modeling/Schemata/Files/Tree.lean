import Schemata.Files.Path

namespace Schemata

inductive FileError
  | missing
  | notDirectory
  | isDirectory
  | notUtf8
deriving DecidableEq

def FileError.message : FileError → String
  | missing => "No such file or directory (os error 2)"
  | notDirectory => "Not a directory (os error 20)"
  | isDirectory => "Is a directory (os error 21)"
  | notUtf8 => "stream did not contain valid UTF-8"

inductive FileEntry
  | file (content : List UInt8)
  | directory (files : List (List String × List UInt8))

/-- Files and directories by their places. Relative paths start at the working directory, which need
not be listed; nor need directories that hold something. -/
structure FileTree where
  workingDirectory : Place
  files : List (Place × List UInt8)
  directories : List Place

namespace FileTree

def empty (workingDirectory : Place) : FileTree := ⟨workingDirectory, [], []⟩

def start (t : FileTree) (path : String) : Place :=
  if path.toList.head? = some '/' then [] else t.workingDirectory

def through (t : FileTree) (path : String) : List Place := (t.start path).through (pathParts path)

def addDirectory (t : FileTree) (path : String) : FileTree :=
  { t with directories := t.directories ++ t.through path }

def addFile (t : FileTree) (path : String) (content : List UInt8) : FileTree :=
  let places := t.through path
  let place := places.getLast?.getD []
  { t with
    files := t.files.filter (fun f => f.1 ≠ place) ++ [(place, content)]
    directories := t.directories ++ places.dropLast }

def below (t : FileTree) (place : Place) : List (List String × List UInt8) :=
  t.files.filterMap fun f =>
    if place <+: f.1 ∧ place.length < f.1.length then some (f.1.drop place.length, f.2) else none

def isDirectory (t : FileTree) (place : Place) : Bool :=
  (t.workingDirectory :: t.directories).any (fun d => decide (place <+: d)) || !(t.below place).isEmpty

def contains (t : FileTree) (place : Place) : Bool :=
  (t.files.lookup place).isSome || t.isDirectory place

def follow (t : FileTree) (place : Place) (part : String) : Except FileError Place :=
  if !t.isDirectory place then .error .notDirectory
  else if t.contains (place.next part) then .ok (place.next part)
  else .error .missing

def resolve (t : FileTree) (path : String) : Except FileError Place :=
  if path = "" then .error .missing else (pathParts path).foldlM t.follow (t.start path)

def entry (t : FileTree) (path : String) : Except FileError FileEntry := do
  let place ← t.resolve path
  match t.files.lookup place with
  | some content => return .file content
  | none => return .directory (t.below place)

end FileTree

end Schemata
