import Atmark.Command.Flags
import Atmark.Command.Module
import Atmark.Command.Usage
import Atmark.Site.Basic
import Atmark.Site.Watch

/-!
The commands, as functions of the arguments and of the files of the working directory. A command says
what it prints, the status it ends with, and the files it leaves.
-/
namespace Atmark.Command

/-- What a command does. -/
structure Outcome where
  status : Nat := 0
  out : Text := []
  err : Text := []
  files : Files
  /-- The command goes on whenever a file in this directory changes. -/
  watching : Option Text := none

/-- What a command is asked to do. -/
structure Options where
  dir : Text := Path.here
  /-- The configuration file, that of the directory if empty. -/
  config : Text := []
  verbose : Bool := false

/-- A failure in the way it is shown. -/
def colored (message : Text) : Text := utf8 "\x1b[1;31m" ++ message ++ utf8 "\x1b[0m\n"

/-- The path of the module that generated code imports. -/
def modulePath : Text := utf8 "github.com/open2b/rusthtml"

/-- The work of a command: it adds records and changes the files, and fails with a text. -/
structure Work where
  files : Files
  /-- The records so far, latest first. -/
  log : List Record := []

/-- A step of the work. -/
abbrev WorkM := EStateM Text Work

namespace WorkM

/-- Adds a record. -/
def note (level : Level) (message : String) (fields : List (String × Text)) : WorkM Unit :=
  modify fun w => { w with log := { message, fields, level } :: w.log }

/-- Fails because a file operation was refused, at a path as the user wrote it. -/
def refused {α : Type} (operation : String) (path : Text) (trouble : FileTrouble) : WorkM α :=
  throw (FileError.mk operation path trouble).message

/-- What is at a path that the user wrote; nothing is known outside the working directory. -/
def look (path : Text) : WorkM (Except FileTrouble Files.Opened) := do
  let fs := (← get).files
  if path.isEmpty || Path.isRooted path || Path.leavesRoot (Path.clean path) then
    return .error .noEntry
  match fs.open? (Path.clean path) with
  | .ok o => return .ok o
  | .error e => return .error e.trouble

/-- The configuration at a path; without a file there it is the default. -/
def loadConfig (path : Text) : WorkM Config := do
  match ← look path with
  | .ok (.file data) => match Config.parse data with
    | .ok c => return c
    | .error f => throw (path ++ utf8 ": " ++ f.message)
  | .ok .directory => refused "read" path .isDirectory
  | .error t => if t.isAbsence then return {} else refused "open" path t

/-- The site of a directory. -/
def openSite (o : Options) : WorkM Site := do
  let path := if o.config.isEmpty then Path.join o.dir Config.fileName else o.config
  let config ← loadConfig path
  note .debug "configuration" [("path", path), ("environment", config.environment)]
  return { files := (← get).files.below (Path.clean o.dir), config }

/-- Compiles all templates of a site. -/
def compileSite (s : Site) : WorkM (List GeneratedFile) := fun w =>
  match s.compileAll { cache := some {} } with
  | .ok files world => .ok files { w with log := world.log ++ w.log }
  | .error e world => .error e.message { w with log := world.log ++ w.log }

/-- Writes generated files below a directory, those apart that are there already with the same content;
gives the number of files written. -/
def writeFiles (dir : Text) : List GeneratedFile → WorkM Nat
  | [] => return 0
  | f :: fs => do
    let path := Path.join dir f.path
    match ← look path with
    | .ok .directory => refused "read" path .isDirectory
    | .ok (.file old) =>
      if old = f.source then writeFiles dir fs
      else
        modify fun w => { w with files := w.files.put (Path.clean path) f.source }
        return (← writeFiles dir fs) + 1
    | .error t =>
      if !t.isAbsence then refused "open" path t
      modify fun w => { w with files := w.files.put (Path.clean path) f.source }
      return (← writeFiles dir fs) + 1

/-- The paths of the module files that may belong to a directory, the nearest first. -/
def moduleFiles (dir : Text) : List Text :=
  let elements := if dir = Path.here then [] else Path.elements dir
  ((List.range (elements.length + 1)).map fun n =>
    Path.join (Text.intercalate [Path.slash] (elements.take n)) (utf8 "go.mod")).reverse

/-- Checks that the module of a directory requires the one that generated code imports. Paths are shown
below `root`. -/
def checkModule (root dir : Text) : WorkM Unit := do
  let fs := (← get).files
  match (moduleFiles (Path.clean dir)).find? fun p => (fs.open? p).isOk with
  | none => note .warning "no go.mod file found" [("dir", dir)]
  | some path =>
    let shown := Path.join root path
    match fs.get? path with
    | none => refused "read" shown .isDirectory
    | some src =>
      let file := ModuleFile.parse src
      if !file.troubles.isEmpty then throw (file.report shown)
      if !file.isNamed then throw (shown ++ utf8 ": missing module declaration")
      let path := file.path
      if path = modulePath || Text.startsWith (modulePath ++ [Path.slash]) path then return
      match file.required.lookup modulePath with
      | some version => note .debug "module" [("path", path), ("rusthtml", version)]
      | none =>
        note .warning "module does not require github.com/open2b/rusthtml, run 'go mod tidy'"
          [("module", path)]

/-- Compiles the templates of a directory and writes the generated files. -/
def generate (root : Text) (o : Options) : WorkM Unit := do
  match ← look o.dir with
  | .error t => refused "stat" o.dir t
  | .ok (.file _) => throw (o.dir ++ utf8 " is not a directory")
  | .ok .directory =>
    let site ← openSite o
    let files ← compileSite site
    let written ← writeFiles o.dir files
    note .info "generated"
      [("templates", Text.ofNat files.length), ("written", Text.ofNat written)]
    checkModule root o.dir

/-- Gets ready to compile the templates of a directory whenever they change. -/
def prepareWatch (o : Options) : WorkM Site := do
  let site ← openSite o
  match ← look o.dir with
  | .error t => refused "lstat" o.dir t
  | .ok _ => return site

/-- Compiles the templates of a watched directory; a failure is shown and is no failure of the
command. -/
def rebuild (o : Options) (site : Site) : WorkM Text := fun w =>
  match (do writeFiles o.dir (← compileSite site)) w with
  | .ok _ w => .ok [] w
  | .error message w => .ok (colored message) w

end WorkM

/-- The lines of the records that a user is told. -/
def logText (verbose : Bool) (log : List Record) : Text :=
  (log.reverse.filter fun r => verbose || r.level.matters).flatMap Record.line

/-- Compiles the templates of a directory. -/
def generate (root : Text) (o : Options) (files : Files) : Outcome :=
  match WorkM.generate root o { files } with
  | .ok _ w => { err := logText o.verbose w.log, files := w.files }
  | .error message w =>
    { status := 1, err := logText o.verbose w.log ++ colored message ++ utf8 "exit status 1\n",
      files := w.files }

/-- Compiles the templates of a directory now and whenever they change. -/
def watch (o : Options) (files : Files) : Outcome :=
  match (do WorkM.rebuild o (← WorkM.prepareWatch o)) { files } with
  | .ok shown w =>
    { err := logText o.verbose w.log ++ shown, files := w.files, watching := some o.dir }
  | .error message w =>
    { status := 1, err := logText o.verbose w.log ++ colored message ++ utf8 "exit status 1\n",
      files := w.files }

/-- Reads the flags and the directory of a command, and goes on with them. -/
def withOptions (known : List Flag) (usage : Text) (args : List Text) (files : Files)
    (act : Options → Outcome) : Outcome :=
  match parseFlags known args with
  | .error f => { status := 2, err := f.message ++ usage, files }
  | .ok (set, rest) =>
    let o : Options :=
      { config := (flagValue? set "c").getD []
        verbose := ((flagValue? set "v").bind boolValue?).getD false }
    match rest with
    | [] => act o
    | [dir] => act { o with dir }
    | _ => { status := 1, err := utf8 "bad number of arguments\n" ++ usage, files }

/-- A flag with a value. -/
def configFlag : Flag := ⟨utf8 "c", false⟩

/-- Flags that are true or false. -/
def boolFlag (name : String) : Flag := ⟨utf8 name, true⟩

/-- Runs a command line in a working directory, whose path is `root`. -/
def run (root : Text) (args : List Text) (files : Files) : Outcome :=
  match args with
  | [] => { err := mainUsage, files }
  | command :: args =>
    if command = utf8 "generate" then
      withOptions [configFlag, boolFlag "check", boolFlag "v"] generateUsage args files
        fun o => generate root o files
    else if command = utf8 "watch" then
      withOptions [configFlag, boolFlag "v"] watchUsage args files fun o => watch o files
    else if command = utf8 "version" then
      { out := utf8 "rusthtml version:                  (devel)\n", files }
    else if command = utf8 "help" then
      match args with
      | [] => { err := mainUsage, files }
      | topic :: _ => match usage? topic with
        | some text => { err := text, files }
        | none =>
          { status := 1, files, err := utf8 "rusthtml help " ++ topic ++
              utf8 ": unknown help topic. Run 'rusthtml help'.\n" }
    else
      { status := 1, files, err := utf8 "rusthtml " ++ command ++
          utf8 ": unknown command\nRun 'rusthtml help' for usage.\n" }

end Atmark.Command
