import Schemata.Command
/-!
Command line. Files are read where they are named. For a directory that is named, the paths of the
files below it are expected on standard input, one a line.
-/

namespace Schemata.CommandLine

def usage : String :=
  "usage: schemata check [--" ++ Argument.extensionsName ++ " EXT,EXT] PATH...\n       schemata describe PATH"

def load (tree : FileTree) (path : String) : IO FileTree := do
  try
    let content ← IO.FS.readBinFile path
    return tree.addFile path content.toList
  catch e =>
    match e with
    | .inappropriateType _ 21 _ => return tree.addDirectory path
    | .inappropriateType .. | .noFileOrDirectory .. => return tree
    | _ => throw e

def workingPlace (path : String) : Place := ((FileTree.empty []).through path).getLast?.getD []

def stages (path : String) : List String :=
  let parts := pathParts path
  ((List.range parts.length).map fun n => "/".intercalate (parts.take (n + 1))).filter (· ≠ "")

def loadStages (tree : FileTree) (path : String) : IO FileTree := (stages path).foldlM load tree

def namesDirectory (tree : FileTree) (command : Command) : Bool :=
  command.paths.any fun path => tree.entry path matches .ok (.directory _)

partial def readLines (input : IO.FS.Stream) : IO (List String) := do
  let line ← input.getLine
  if line.isEmpty then return []
  return line :: (← readLines input)

def listedPaths : IO (List String) := do
  let text := String.join (← readLines (← IO.getStdin))
  return (Text.lines text).filter fun path => path ≠ ""

def gather (command : Command) : IO FileTree := do
  let start := FileTree.empty (workingPlace (← IO.currentDir).toString)
  let tree ← command.paths.foldlM loadStages start
  if namesDirectory tree command then (← listedPaths).foldlM load tree else return tree

end Schemata.CommandLine

def main (arguments : List String) : IO UInt32 := do
  match Schemata.Command.ofWords? arguments with
  | none =>
    IO.eprintln Schemata.CommandLine.usage
    return 2
  | some command =>
    match command.run (← Schemata.CommandLine.gather command) with
    | .success text =>
      IO.println text
      return 0
    | .failure text =>
      IO.eprintln text
      return 1
