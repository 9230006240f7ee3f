import Sexpr.SourceFile

/-!
# Directories held in memory

A `Directory` gives the folders and the files below one place. `Directory.find` follows a path
from there the way a system does: every part but the last has to be a folder, a dot stays where it
is, two dots go up, and a path that ends in a folder cannot be read.
-/

namespace Sexpr

/-- The folders and files below a place, each with the path that leads to it. -/
structure Directory where
  folders : List (List String)
  files : List (List String × ByteArray)

namespace Directory

/-- The names on a path. -/
def split (path : String) : List String := path.splitOn "/"

/-- A directory from paths as they are written. -/
def ofPaths (folders : List String) (files : List (String × ByteArray)) : Directory where
  folders := folders.map split
  files := files.map fun (path, bytes) => (split path, bytes)

/-- A place on the way along a path. -/
inductive Place where
  | folder (path : List String)
  | file (bytes : ByteArray)
  /-- Above the directory, where nothing is known. -/
  | outside

/-- Whether a path leads to a folder: one that is given, or one above a folder or a file. -/
def isFolder (d : Directory) (path : List String) : Bool :=
  path = [] || d.folders.any (path.isPrefixOf ·) ||
    d.files.any fun (file, _) => path ≠ file && path.isPrefixOf file

/-- Follows one name of a path. -/
def follow (d : Directory) (place : Place) (name : String) : Except FileFault Place :=
  match place with
  | .file _ => .error .notDirectory
  | .outside => if name = "" ∨ name = "." ∨ name = ".." then .ok .outside else .error .missing
  | .folder path =>
    if name = "" ∨ name = "." then .ok place
    else if name = ".." then .ok (if path = [] then .outside else .folder path.dropLast)
    else
      let below := path ++ [name]
      match d.files.lookup below with
      | some bytes => .ok (.file bytes)
      | none => if d.isFolder below then .ok (.folder below) else .error .missing

/-- The content of the file that a path leads to. -/
def find (d : Directory) (path : String) : Except FileFault ByteArray :=
  match split path with
  | [""] => .error .missing
  | names => do
    let start := if names.head? = some "" then Place.outside else .folder []
    match ← names.foldlM d.follow start with
    | .file bytes => .ok bytes
    | _ => .error .isDirectory

end Directory

end Sexpr
