import Atmark.Files
import Atmark.Text.Trim

/-!
Archives: one text that holds several files. A line `-- name --` starts a file; what stands before the
first such line is a comment. A text that does not end with a line feed gets one.
-/
namespace Atmark.Archive

/-- The lines of a text, each with its line feed; the last may have none. -/
def lines : Text → List Text
  | [] => []
  | b :: r =>
    if b = 0x0A then [b] :: lines r
    else match lines r with
      | [] => [[b]]
      | l :: ls => (b :: l) :: ls

/-- The name of the file that a line starts. -/
def marker? (line : Text) : Option Text := do
  let line := if line.getLast? = some 0x0A then line.dropLast else line
  let inner ← Text.strip? (utf8 "-- ") line
  if inner.length < 3 || !Text.endsWith (utf8 " --") line then none
  let name := Text.trim (inner.take (inner.length - 3))
  if name.isEmpty then none else some name

/-- The text, ended by a line feed unless it is empty. -/
def ended (t : Text) : Text :=
  match t.getLast? with
  | none => []
  | some b => if b = 0x0A then t else t ++ [0x0A]

/-- The text before the first marker, and the files in order. -/
def parts : List Text → Text × List (Text × Text)
  | [] => ([], [])
  | l :: ls =>
    let (before, files) := parts ls
    match marker? l with
    | some name => ([], (name, before) :: files)
    | none => (l ++ before, files)

/-- The comment and the files of an archive; of two files with one name the later stays. -/
def parse (src : Text) : Text × Files :=
  let (comment, files) := parts (lines (ended src))
  (comment, files.foldl (fun fs f => fs.put f.1 f.2) { entries := [] })

/-- The extension of archives. -/
def extension : Text := utf8 ".txtar"

/-- The paths of the archives in a directory, which is known outside as `shown`. -/
def find (fs : Files) (dir shown : Text) : Except Error (List Text) :=
  let dir := Path.clean dir
  match fs.open? dir with
  | .error e => .error (.file { e with path := shown })
  | .ok (.file _) => .error (.file ⟨"open", shown, .notDirectory⟩)
  | .ok .directory =>
    let names := (fs.list dir).filter fun e => !e.isDirectory && Text.endsWith extension e.name
    if names.isEmpty then .error (.plain (utf8 "no archives in " ++ shown))
    else .ok (names.map fun e => Path.join dir e.name)

end Atmark.Archive
