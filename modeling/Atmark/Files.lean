import Atmark.Error
import Atmark.Path

/-!
File systems held in memory: paths with their content, and directories implied by the paths. The paths
are slash-separated and unique. A directory can be opened like a file and reads as an empty one, unless
the files stand for a directory of the operating system, which refuses that.
-/
namespace Atmark

/-- Files by their paths. -/
structure Files where
  entries : List (Text × Text)
  /-- The files lie in a directory of the operating system. -/
  onDisk : Bool := false

namespace Files

/-- The content of the file at a path. -/
def get? (fs : Files) (path : Text) : Option Text := (fs.entries.find? (·.1 = path)).map (·.2)

/-- The files after one is written. -/
def put (fs : Files) (path data : Text) : Files :=
  if fs.entries.any (·.1 = path) then
    { fs with entries := fs.entries.map fun e => if e.1 = path then (path, data) else e }
  else { fs with entries := fs.entries ++ [(path, data)] }

/-- The files after one is removed. -/
def erase (fs : Files) (path : Text) : Files :=
  { fs with entries := fs.entries.filter (·.1 ≠ path) }

/-- The path is a directory: the root, or the beginning of the path of a file. -/
def isDirectory (fs : Files) (path : Text) : Bool :=
  path = Path.here || fs.entries.any (Text.startsWith (path ++ [Path.slash]) ·.1)

/-- The path leads through a file as if that were a directory. -/
def throughFile (fs : Files) (path : Text) : Bool :=
  fs.entries.any fun e => Text.startsWith (e.1 ++ [Path.slash]) path

/-- The path names something that can be there. -/
def admits (fs : Files) (path : Text) : Bool :=
  Path.isFilePath path && !(fs.onDisk && path.contains 0)

/-- Why nothing is found at a path. -/
def absence (fs : Files) (path : Text) : FileTrouble :=
  if !fs.onDisk then .absent
  else if !fs.admits path then .invalid
  else if fs.throughFile path then .notDirectory
  else .noEntry

/-- A path that can be opened: a file with its content, or a directory. -/
inductive Opened where
  | file (data : Text)
  | directory
  deriving DecidableEq, Repr

/-- What is at a path. -/
def open? (fs : Files) (path : Text) : Except FileError Opened :=
  let refused : Except FileError Opened := .error ⟨"open", path, fs.absence path⟩
  if !fs.admits path then refused
  else if path = Path.here then .ok .directory
  else match fs.get? path with
    | some data => .ok (.file data)
    | none => if fs.isDirectory path then .ok .directory else refused

/-- The content at a path. -/
def read (fs : Files) (path : Text) : Except FileError Text :=
  if fs.onDisk && !fs.admits path then .error ⟨"readfile", path, .invalid⟩
  else match fs.open? path with
    | .ok (.file data) => .ok data
    | .ok .directory => if fs.onDisk then .error ⟨"read", path, .isDirectory⟩ else .ok []
    | .error e => .error e

/-- The files below a directory, with their paths from there. -/
def below (fs : Files) (dir : Text) : Files :=
  if dir = Path.here then fs
  else { fs with entries := fs.entries.filterMap fun e =>
    (Text.strip? (dir ++ [Path.slash]) e.1).map (·, e.2) }

/-- What a directory lists. -/
structure Entry where
  name : Text
  isDirectory : Bool
  size : Nat
  deriving DecidableEq, Repr

/-- The path of the entry of a directory under which a file is listed, and whether that is a directory;
nothing if the file is not below the directory, whose path ends with a slash. -/
def entryOf? (dir path : Text) : Option (Text × Bool) :=
  (Text.strip? dir path).map fun rest =>
    match Text.cut? Path.slash rest with
    | some (b :: name, _) => (dir ++ b :: name, true)
    | _ => (path, false)

/-- The entries of a directory, in order of their names. -/
def list (fs : Files) (dir : Text) : List Entry :=
  let listed := fs.entries.filterMap fun e =>
    entryOf? (if dir = Path.here then [] else dir ++ [Path.slash]) e.1
  let directories := ((listed.filter (·.2)).map (·.1)).eraseDups
  let files := (listed.filter (!·.2)).map (·.1)
  (Text.sort (directories ++ files)).map fun path =>
    ⟨Path.base path, directories.contains path, ((fs.get? path).getD []).length⟩

end Files
end Atmark
