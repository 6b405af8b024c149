import Atmark.Markdown.Html
import Atmark.Site.Config
import Atmark.View.Source

/-!
A site: the files below a directory and how the templates among them are compiled. All templates of a
site share one cache, so a content that several of them include is read once.
-/
namespace Atmark

/-- Files with a configuration. -/
structure Site where
  files : Files
  config : Config := {}

/-- A file generated from a template. -/
structure GeneratedFile where
  template : Text
  path : Text
  source : Text
  deriving DecidableEq, Repr

namespace Files

/-- The name of a file or directory that is passed over: partial templates and hidden files. -/
def isPassedOver (name : Text) : Bool := name.head? = some 0x2E || name.head? = some 0x5F

/-- The files below a directory that are not passed over, with at most `n` directories inside each
other. A file that is also a directory cannot be listed. -/
def walk (fs : Files) : Nat → Text → Except FileError (List Text)
  | 0, _ => .ok []
  | n + 1, dir => do
    let found ← (fs.list dir).mapM fun e =>
      let path := Path.join dir e.name
      if isPassedOver e.name then .ok []
      else if !e.isDirectory then .ok [path]
      else if (fs.get? path).isSome then .error ⟨"readdir", path, .unsupported⟩
      else fs.walk n path
    return found.flatten

/-- More directories than this do not go into each other. -/
def depthBound (fs : Files) : Nat := (fs.entries.map (·.1.length)).foldl max 0 + 1

end Files

namespace Site

/-- The settings of the compilations of a site. -/
def settings (s : Site) : Settings :=
  { environment := s.config.environment
    files := some s.files
    markdown := fun src => .ok (Markdown.render src)
    buffer := s.config.buffer
    package := s.config.package
    coalesce := s.config.coalesce }

/-- The paths of the templates, in order: the files with the extension of the configuration that are
not passed over. -/
def templates (s : Site) : Except FileError (List Text) := do
  let files ← s.files.walk s.files.depthBound Path.here
  return Text.sort (files.filter fun p => Text.endsWith s.config.extension (Path.base p))

/-- Parses the template at a path. -/
def parse (s : Site) (path : Text) : WorldM Template :=
  Template.parseFile s.config.registry s.settings path

/-- Compiles the template at a path. -/
def compile (s : Site) (path : Text) : WorldM Text :=
  Template.compileFile s.config.registry s.settings path

/-- Compiles the source of a template, as if it were at a path. -/
def compileSource (s : Site) (path src : Text) : WorldM Text :=
  Template.compile s.config.registry s.settings path src

/-- The name of the type of the view of the template at a path. -/
def viewType (s : Site) (path : Text) : WorldM Text := do
  let t ← s.parse path
  return View.typeOf t.declared.name t.path

/-- Compiles the template at a path and gives its error as a result; only a stop goes on. -/
def attempt (s : Site) (path : Text) : WorldM (Except Error Text) := fun w =>
  match s.compile path w with
  | .ok source w => .ok (.ok source) w
  | .error e w => if e.isStop then .error e w else .ok (.error e) w

/-- Compiles templates one after another. A template that fails does not keep the others from being
compiled, but a stop does. -/
def compileEach (s : Site) : List Text → WorldM (List GeneratedFile × List Error)
  | [] => return ([], [])
  | path :: paths => do
    match ← s.attempt path with
    | .ok source =>
      WorldM.note "compiled" [("template", path), ("bytes", Text.ofNat source.length)]
      let (files, errors) ← s.compileEach paths
      let file : GeneratedFile := ⟨path, View.outputPath path, source⟩
      return (file :: files, errors)
    | .error e =>
      let (files, errors) ← s.compileEach paths
      return (files, e :: errors)

/-- Compiles all templates; the errors are joined in order of the files they are found in. -/
def compileAll (s : Site) : WorldM (List GeneratedFile) := do
  match s.templates with
  | .error e => throw (.file e)
  | .ok paths =>
    let (files, errors) ← s.compileEach paths
    if errors.isEmpty then return files
    else throw (.joined (errors.mergeSort fun a b => Text.le a.path b.path))

end Site
end Atmark
