import Schemata.CommandLine
import Schemata.Describe
import Schemata.Files.Sources
import Schemata.Generation.Basic

namespace Schemata

inductive Outcome
  | success (text : String)
  | failure (text : String)
deriving DecidableEq

inductive Command
  | check (extensions paths : List String)
  | describe (path : String)
deriving DecidableEq

open CommandLine

namespace Command

def defaultExtensions : List String := ["graphql", "graphqls"]

def extensionsOf (lists : List (List String)) : List String :=
  if lists.isEmpty then defaultExtensions else lists.flatten

def ofName? (name : String) (arguments : List Argument) : Option Command :=
  let paths := arguments.filterMap Argument.path?
  let lists := arguments.filterMap Argument.extensions?
  if !Argument.unrepeated arguments || paths.contains "" then none
  else match name, lists, paths with
  | "check", _, [] => none
  | "check", _, _ => some (check (extensionsOf lists) paths)
  | "describe", [], [path] => some (describe path)
  | _, _, _ => none

def ofWords? (words : List String) : Option Command := do
  let arguments ← Argument.ofWords? words
  match arguments.dropWhile Argument.isCommon with
  | .plain name :: after =>
    if Argument.unrepeated (arguments.takeWhile Argument.isCommon) then ofName? name after else none
  | _ => none

def paths : Command → List String
  | check _ paths => paths
  | describe path => [path]

def successSign : String := "✅"

def failureSign : String := "❌"

def unreachedMessage (path : String) (e : FileError) : String :=
  "IO error for operation on " ++ path ++ ": " ++ e.message ++ ": " ++ e.message

def failing (text : String) : Outcome := .failure (failureSign ++ " " ++ text)

def successText (files skipped types : Nat) : String :=
  successSign ++ " All SDL checked successfully:\n  * Analyzed " ++ toString files
    ++ " files.\n  * Skipped " ++ toString skipped ++ " non-SDL files.\n  * Generated "
    ++ toString types ++ " type definitions."

/-- Makes a registry of a document by itself: calculated fields get placeholder resolvers. -/
def generateAlone (d : Document) : Generated Registry :=
  generate (Implementations.empty.withPlaceholders d) d

def runCheck (tree : FileTree) (extensions paths : List String) : Outcome :=
  let found := Findings.ofPaths tree paths extensions
  if !found.unreached.isEmpty then
    failing ("Errors finding SDL files:\n"
      ++ "\n".intercalate (found.unreached.map fun p => unreachedMessage p.1 p.2))
  else
    match SourceFile.parseAll found.files with
    | .error errors =>
      failing (toString errors.length ++ " SDL syntax error(s):\n"
        ++ "\n".intercalate (errors.map SourceError.message))
    | .ok d =>
      match generateAlone d with
      | .error e => failing ("Errors generating types: " ++ e.message)
      | .ok r => .success (successText found.files.length found.skipped r.size)

def runDescribe (tree : FileTree) (path : String) : Outcome :=
  match tree.read path >>= SourceFile.parse with
  | .error e => failing e.message
  | .ok d =>
    match generateAlone d with
    | .error e => failing ("Failed to generate types from " ++ path ++ ": " ++ e.message)
    | .ok r => .success (Describe.registry r)

def run (tree : FileTree) : Command → Outcome
  | check extensions paths => runCheck tree extensions paths
  | describe path => runDescribe tree path

end Command

end Schemata
