import Atmark.Command.Version
import Atmark.Text.Quoted
import Atmark.Text.Trim

/-!
Module files, as far as they tell the path of a module and what it requires. A line has a verb and
arguments; a verb may also stand before several lines in parentheses. All other verbs are passed over.
-/
namespace Atmark.Command

/-- What is wrong with a line of a module file. -/
inductive ModuleTrouble where
  | repeatedModule
  | moduleArguments
  | requireArguments
  | strayQuote
  | openQuote
  | version (path version : Text)
  | majorVersion (path version expected found : Text)
  deriving DecidableEq, Repr

/-- The wording of a trouble. -/
def ModuleTrouble.message : ModuleTrouble → Text
  | .repeatedModule => utf8 "repeated module statement"
  | .moduleArguments => utf8 "usage: module module/path"
  | .requireArguments => utf8 "usage: require module/path v1.2.3"
  | .strayQuote => utf8 "invalid quoted string: unquoted string cannot contain quote"
  | .openQuote => utf8 "invalid quoted string: invalid syntax"
  | .version path v =>
    utf8 "require " ++ path ++ utf8 ": version " ++ Text.quote v ++
      utf8 " invalid: must be of the form v1.2.3"
  | .majorVersion path v expected found =>
    utf8 "require " ++ path ++ utf8 ": version " ++ Text.quote v ++ utf8 " invalid: should be " ++
      expected ++ utf8 ", not " ++ found

/-- What a module file tells, and the troubles with the numbers of their lines. -/
structure ModuleFile where
  /-- The first line with the verb `module` has been read. -/
  isNamed : Bool := false
  path : Text := []
  required : List (Text × Text) := []
  troubles : List (Nat × ModuleTrouble) := []

namespace ModuleFile

/-- The line without its comment. -/
def withoutComment : Text → Text
  | 0x2F :: 0x2F :: _ => []
  | b :: r => b :: withoutComment r
  | [] => []

/-- The words of a line; brackets and commas stand alone. -/
def wordsFrom (word : Text) : Text → List Text
  | [] => if word.isEmpty then [] else [word]
  | b :: r =>
    let ended := if word.isEmpty then [] else [word]
    if Text.isIndent b || b = 0x0D then ended ++ wordsFrom [] r
    else if (utf8 "()[]\x7b\x7d,").contains b then ended ++ [b] :: wordsFrom [] r
    else wordsFrom (word ++ [b]) r

/-- The words of a line without its comment. -/
def wordsOf (line : Text) : List Text := wordsFrom [] (withoutComment line)

/-- The text that a word stands for, which may be in double quotes. -/
def textOf (word : Text) : Except ModuleTrouble Text :=
  if word.head? = some 0x22 then
    match Text.unquote? word with
    | some t => .ok t
    | none => .error .openQuote
  else if word.any (utf8 "\x22'\x60").contains then .error .strayQuote
  else .ok word

/-- The path and the version of a required module. -/
def requirement (args : List Text) : Except ModuleTrouble (Text × Text) :=
  match args with
  | [path, version] => do
    let path ← textOf path
    let version ← textOf version
    match Version.parse? version with
    | none => .error (.version path version)
    | some v =>
      match v.expectedMajor? path with
      | some expected => .error (.majorVersion path v.canonical expected v.major)
      | none => .ok (path, v.canonical)
  | _ => .error .requireArguments

/-- The path of the module. -/
def modulePath (args : List Text) : Except ModuleTrouble Text :=
  match args with
  | [path] => textOf path
  | _ => .error .moduleArguments

/-- The file after a line with a verb and its arguments. -/
def tell (f : ModuleFile) (line : Nat) (verb : Text) (args : List Text) : ModuleFile :=
  let refuse (f : ModuleFile) (t : ModuleTrouble) : ModuleFile :=
    { f with troubles := f.troubles ++ [(line, t)] }
  if verb = utf8 "module" then
    if f.isNamed then refuse f .repeatedModule
    else match modulePath args with
      | .ok path => { f with isNamed := true, path }
      | .error t => refuse { f with isNamed := true } t
  else if verb = utf8 "require" then
    match requirement args with
    | .ok r => { f with required := f.required ++ [r] }
    | .error t => refuse f t
  else f

/-- The file after numbered lines, inside the parentheses of a verb or not. -/
def tellLines (f : ModuleFile) (block : Option Text) : List (Text × Nat) → ModuleFile
  | [] => f
  | (l, line) :: ls =>
    match block, wordsOf l with
    | _, [] => tellLines f block ls
    | some verb, ws =>
      if ws = [utf8 ")"] then tellLines f none ls else tellLines (f.tell line verb ws) block ls
    | none, verb :: ws =>
      if ws.getLast? = some (utf8 "(") then
        tellLines f (some (if ws.length = 1 then verb else [])) ls
      else tellLines (f.tell line verb ws) none ls

/-- What a module file tells. -/
def parse (src : Text) : ModuleFile := tellLines {} none ((Text.splitOn 0x0A src).zipIdx 1)

/-- The troubles of the file of a name, one a line. -/
def report (f : ModuleFile) (name : Text) : Text :=
  Text.intercalate (utf8 "\n") (f.troubles.map fun (line, t) =>
    name ++ utf8 ":" ++ Text.ofNat line ++ utf8 ": " ++ t.message)

end ModuleFile
end Atmark.Command
