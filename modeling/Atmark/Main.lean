import Atmark.Command.Run

/-!
The command line: reads the working directory, runs the command on what is there, and writes what the
command says. A watched directory is read again every tenth of a second.
-/
namespace Atmark.Main

/-- The files among directory entries and below them, with the beginning of their paths. -/
partial def collect (above : Text) (entries : Array IO.FS.DirEntry) : IO (List (Text × Text)) := do
  let mut found : List (Text × Text) := []
  for e in entries do
    let path := above ++ utf8 e.fileName
    if ← e.path.isDir then
      found := found ++ (← collect (path ++ [Path.slash]) (← e.path.readDir))
    else
      found := found ++ [(path, (← IO.FS.readBinFile e.path).toList)]
  return found

/-- The files of the working directory. -/
def readFiles : IO Files := do
  return { entries := ← collect [] (← (← IO.currentDir).readDir), onDisk := true }

/-- Bytes of a text. -/
def bytes (t : Text) : ByteArray := ⟨t.toArray⟩

/-- Writes the files that are new or have changed. -/
def writeChanges (old new : Files) : IO Unit := do
  let dir ← IO.currentDir
  for (path, data) in new.entries do
    if old.get? path != some data then
      IO.FS.writeBinFile (dir / String.ofList (Text.runes path)) (bytes data)

/-- The files in a directory whose changes matter. -/
def relevant (dir : Text) (fs : Files) : List (Text × Text) :=
  (fs.below (Path.clean dir)).entries.filter fun e => !Watch.ignores dir (Path.join dir e.1)

/-- Runs a command line, again whenever a watched directory changes. -/
partial def run (args : List Text) : IO UInt32 := do
  let files ← readFiles
  let root := utf8 (← IO.currentDir).toString
  let outcome := Command.run root args files
  (← IO.getStdout).write (bytes outcome.out)
  (← IO.getStderr).write (bytes outcome.err)
  writeChanges files outcome.files
  match outcome.watching with
  | none => return outcome.status.toUInt32
  | some dir =>
    let before := relevant dir files
    repeat
      IO.sleep 100
      if relevant dir (← readFiles) != before then break
    run args

end Atmark.Main

/-- Runs the command that the arguments name. -/
def main (args : List String) : IO UInt32 := Atmark.Main.run (args.map Atmark.utf8)
