import Schemata.Document.Parser
import Schemata.Files.Tree

namespace Schemata

structure SourceFile where
  path : String
  content : List UInt8
deriving DecidableEq

structure Findings where
  unreached : List (String × FileError)
  files : List SourceFile
  skipped : Nat
deriving DecidableEq

namespace Findings

def none : Findings := ⟨[], [], 0⟩

def normalizeExtension (extension : String) : String :=
  String.ofList (extension.toList.dropWhile (· == '.'))

def addFile (extensions : List String) (found : Findings) (file : SourceFile) : Findings :=
  if (fileExtension? file.path).any fun e => extensions.contains e then
    { found with files := found.files ++ [file] }
  else { found with skipped := found.skipped + 1 }

def addPath (tree : FileTree) (extensions : List String) (found : Findings) (path : String) : Findings :=
  match tree.entry path with
  | .error e => { found with unreached := found.unreached ++ [(path, e)] }
  | .ok (.file content) => found.addFile extensions ⟨path, content⟩
  | .ok (.directory files) =>
    files.foldl (fun found f => found.addFile extensions ⟨pathBelow path f.1, f.2⟩) found

/-- Searches files, and directories with all that is below them. A file that is the only path given
is taken whatever its extension. -/
def ofPaths (tree : FileTree) (paths extensions : List String) : Findings :=
  let found := paths.foldl (addPath tree (extensions.map normalizeExtension)) none
  match found.files, paths with
  | [], [path] =>
    match tree.entry path with
    | .ok (.file content) => { found with files := [⟨path, content⟩], skipped := found.skipped - 1 }
    | _ => found
  | _, _ => found

end Findings

inductive SourceError
  | unreadable (path : String) (error : FileError)
  | invalid (path : String) (error : SyntaxError)
deriving DecidableEq

def SourceError.message : SourceError → String
  | unreadable path error => "Failed to read " ++ path ++ ": " ++ error.message
  | invalid path error => error.detailed path

namespace SourceFile

def decode? (content : List UInt8) : Option String := String.fromUTF8? ⟨content.toArray⟩

def parse (f : SourceFile) : Except SourceError Document :=
  match decode? f.content with
  | none => .error (.unreadable f.path .notUtf8)
  | some source => (Schemata.parse source).mapError (.invalid f.path)

def parseAll : List SourceFile → Except (List SourceError) Document
  | [] => .ok ⟨[]⟩
  | f :: fs =>
    match f.parse, parseAll fs with
    | .ok d, .ok ds => .ok ⟨d.definitions ++ ds.definitions⟩
    | .ok _, .error es => .error es
    | .error e, .ok _ => .error [e]
    | .error e, .error es => .error (e :: es)

end SourceFile

def FileTree.read (t : FileTree) (path : String) : Except SourceError SourceFile :=
  match t.entry path with
  | .ok (.file content) => .ok ⟨path, content⟩
  | .ok (.directory _) => .error (.unreadable path .isDirectory)
  | .error e => .error (.unreadable path e)

end Schemata
