import Atmark.Code.Coalesce
import Atmark.Code.Lower
import Atmark.Code.Type
import Atmark.Token.Print
import Atmark.View.Layout

/-!
The source file of a view: a type with methods that give its name and its parameters and that write its
markup. `ViewFile.source` is the file as it is put together, `ViewFile.formatted` the same code in its
canonical layout, with the imports in order.
-/
namespace Atmark

/-- The import path of the package that generated code writes with. -/
def runtimePath : Text := utf8 "github.com/open2b/rusthtml/runtime"

/-- The parts of the source file of a view. -/
structure ViewFile where
  /-- Path of the template. -/
  path : Text
  package : Text
  buffer : Text
  /-- Name of the type of the view. -/
  type : Text
  /-- Name of the view. -/
  name : Text
  /-- Type of the model. -/
  model : List Token
  imports : List Import
  parameters : List (Text × Text)
  /-- Declarations before the type of the view. -/
  functions : Text
  /-- Fields of the type. -/
  fields : Text
  /-- Declarations after the type. -/
  methods : Text
  /-- Statements that write the view. -/
  body : Text

namespace ViewFile

/-- The names that a statement declares, the blank one apart. -/
def declaredNames (stmt : List Token) : List Text :=
  let names : List Token → List Text :=
    List.filterMap fun t => match t with
      | .ident i => some i.name
      | _ => none
  let rec listed : List Token → List Text
    | .ident a :: c :: ts => a.name :: (if c.isPunct ',' then listed ts else [])
    | [.ident a] => [a.name]
    | _ => []
  let all := match stmt with
    | t :: ts =>
      if t.isNamed "var" then listed ts else names (stmt.takeWhile (!·.isPunct ':'))
    | [] => []
  all.filter (· ≠ utf8 "_")

/-- A statement of the template and uses of the names it declares, so that none is unused. -/
def injectSource (buffer : Text) (stmt : List Token) : Text :=
  Token.format (Code.lower buffer (Node.ofTokens stmt)) ++ utf8 "\n" ++
    (declaredNames stmt).flatMap fun n => utf8 "_ = " ++ n ++ utf8 "\n"

/-- The code of a section. -/
def sectionSource (buffer : Text) (section? : Option (List Token)) : Text :=
  Text.trim (Token.format (Code.lower buffer (Node.ofTokens (section?.getD []))))

/-- The source file of a template. External contents are read now. -/
def ofTemplate (settings : Settings) (t : Template) : WorldM ViewFile := do
  let code ← Code.ofNodes settings t.nodes
  let code := if settings.coalesce then Code.coalesce settings.buffer code else code
  let d := t.declared
  let sectionOf (name : String) : Text := sectionSource settings.buffer (d.sectionOf? (utf8 name))
  return {
    path := t.path
    package := settings.package
    buffer := settings.buffer
    type := View.typeOf d.name t.path
    name := View.nameOf d.name t.path
    model := d.model.getD [.word none (utf8 "any")]
    imports := d.imports
    parameters := (d.parameters.map fun (n, v, _) => (n, v)).mergeSort fun a b => Text.le a.1 b.1
    functions := sectionOf "functions"
    fields := sectionOf "struct"
    methods := sectionOf "impl"
    body := d.injects.flatMap (injectSource settings.buffer) ++ Token.format code }

/-- The beginning of the file. -/
def header (f : ViewFile) : Text :=
  utf8 "// Code generated by rusthtml from " ++ Path.base f.path ++ utf8 ". DO NOT EDIT.\n\npackage " ++
    f.package ++ utf8 "\n\n"

/-- One import on a line of its own. -/
def importLine (i : Import) : Text :=
  utf8 "\t" ++ (if i.name.isEmpty then [] else i.name ++ utf8 " ") ++ Text.quote i.path ++ utf8 "\n"

/-- The comment and the beginning of the type. -/
def typeHeader (f : ViewFile) : Text :=
  utf8 "// " ++ f.type ++ utf8 " is the view of " ++ f.path ++ utf8 ".\ntype " ++ f.type ++
    utf8 " struct \x7b\n"

/-- The beginning of a method. -/
def method (f : ViewFile) (signature : Text) : Text :=
  utf8 "func (v *" ++ f.type ++ utf8 ") " ++ signature ++ utf8 " \x7b"

/-- The method that gives the name. -/
def nameMethod (f : ViewFile) : Text :=
  utf8 "// Name returns the name of the view.\n" ++ f.method (utf8 "Name() string") ++
    utf8 "\n\treturn " ++ Text.quote f.name ++ utf8 "\n\x7d\n\n"

/-- The method that gives the parameters, with each value after so much space. -/
def parametersMethod (f : ViewFile) (gap : Text → Text) : Text :=
  utf8 "// Parameters returns the parameters declared by the view.\n" ++
    f.method (utf8 "Parameters() map[string]string") ++
    (if f.parameters.isEmpty then utf8 "\n\treturn nil\n\x7d\n\n"
    else
      let line (p : Text × Text) : Text :=
        utf8 "\t\t" ++ Text.quote p.1 ++ utf8 ":" ++ gap p.1 ++ Text.quote p.2 ++ utf8 ",\n"
      utf8 "\n\treturn map[string]string\x7b\n" ++ f.parameters.flatMap line ++
        utf8 "\t\x7d\n\x7d\n\n")

/-- The beginning of the method that writes the view, with the type of the model spelled out. -/
def renderHeader (f : ViewFile) (model : Text) : Text :=
  utf8 "// Render writes the view to " ++ f.buffer ++ utf8 ".\n" ++
    f.method (utf8 "Render(" ++ f.buffer ++ utf8 " *runtime.Buffer, " ++
      utf8 "ctx runtime.Context, services runtime.Services, model " ++ model ++ utf8 ")")

/-- A section, if there is any, with line breaks after it. -/
def spacedSection (section_ : Text) (breaks : String) : Text :=
  if section_.isEmpty then [] else section_ ++ utf8 breaks

/-- The file as it is put together. -/
def source (f : ViewFile) : Text :=
  f.header ++ utf8 "import (\n" ++ importLine ⟨[], runtimePath⟩ ++ f.imports.flatMap importLine ++
    utf8 ")\n\n" ++ spacedSection f.functions "\n\n" ++ f.typeHeader ++ spacedSection f.fields "\n" ++
    utf8 "\x7d\n\n" ++ spacedSection f.methods "\n\n" ++ f.nameMethod ++
    f.parametersMethod (fun _ => utf8 " ") ++ f.renderHeader (Token.sourceOf f.model) ++ utf8 "\n" ++
    f.body ++ utf8 "\n\x7d\n"

/-- The group of an import: packages of the standard library, then all others, then those of one
platform. -/
def importGroup (i : Import) : Nat :=
  if Text.startsWith (utf8 "appengine") i.path then 2
  else if (i.path.takeWhile (· != Path.slash)).contains 0x2E then 1
  else 0

/-- Order of imports by group, path and name. -/
def importLe (a b : Import) : Bool :=
  if importGroup a ≠ importGroup b then importGroup a < importGroup b
  else if a.path ≠ b.path then Text.le a.path b.path
  else Text.le a.name b.name

/-- The lines of ordered imports after one of a group, with an empty line between groups. -/
def importLines (before : Option Nat) : List Import → Text
  | [] => []
  | i :: is =>
    (if before.any (· ≠ importGroup i) then utf8 "\n" else []) ++ importLine i ++
      importLines (some (importGroup i)) is

/-- The imports of the file, in order and each once. -/
def sortedImports (f : ViewFile) : List Import :=
  ((⟨[], runtimePath⟩ :: f.imports).mergeSort importLe).eraseDups

/-- Space after a key, so that all values start in one column. -/
def alignedGap (f : ViewFile) (key : Text) : Text :=
  let width (k : Text) : Nat := (Text.runes (Text.quote k)).length
  List.replicate ((f.parameters.map fun p => width p.1).foldl max 0 - width key + 1) 0x20

/-- A package can be imported under the name: its own, a new one, or a dot for no qualifier at all. -/
def isImportName (name : Text) : Bool := name.isEmpty || name = utf8 "." || Code.isName name

/-- The names and the type outside of the code of the template are such in generated code. -/
def isWellNamed (f : ViewFile) : Bool :=
  Code.isName f.package && Code.isName f.buffer && Code.isType f.model &&
    f.imports.all fun i => isImportName i.name

/-- The file in its canonical layout, if its code has one. -/
def formatted (f : ViewFile) : Option Text := do
  if !f.isWellNamed then none
  let functions ← Layout.declarations f.functions
  let fields ← Layout.fields f.fields
  let methods ← Layout.declarations f.methods
  let body ← Layout.functionBody (utf8 "\n" ++ f.body ++ utf8 "\n")
  return f.header ++ utf8 "import (\n" ++ importLines none f.sortedImports ++ utf8 ")\n\n" ++
    spacedSection functions "\n\n" ++ f.typeHeader ++ spacedSection (fields.drop 1) "\n" ++
    utf8 "\x7d\n\n" ++ spacedSection methods "\n\n" ++ f.nameMethod ++
    f.parametersMethod f.alignedGap ++ f.renderHeader (Code.typeText f.model) ++ body.tail ++ utf8 "\n"

end ViewFile

namespace Template

/-- The generated file of a template. -/
def generate (settings : Settings) (t : Template) : WorldM Text := do
  let note (message : String) (fields : List (String × Text)) : WorldM Unit :=
    WorldM.note message ([("component", utf8 "generate"), ("path", t.path)] ++ fields)
  let file ← ViewFile.ofTemplate settings t
  match file.formatted with
  | some out =>
    note "generated" [("type", file.type), ("bytes", Text.ofNat out.length)]
    return out
  | none =>
    note "generated source" [("source", file.source)]
    throw (.unformatted t.path (utf8 "no canonical layout"))

/-- Compiles the source of a template at a path. -/
def compile (r : Registry) (settings : Settings) (path src : Text) : WorldM Text := do
  (← parse r settings path src).generate settings

/-- Compiles the template at a path of the files. -/
def compileFile (r : Registry) (settings : Settings) (path : Text) : WorldM Text := do
  (← parseFile r settings path).generate settings

end Template
end Atmark
