import Atmark.Path
import Atmark.Text.Case
import Atmark.Text.Letter

/-!
Names of views and of their types. A type name joins the words of the view name, each with a capital
first letter, and ends with `View`.
-/
namespace Atmark.View

/-- The letters and digits of a name; `start` says that a word starts, so its first letter becomes a
capital. -/
def camel (start : Bool) : List Char → List Char
  | [] => []
  | c :: cs =>
    if Text.isLetter c || Text.isDigit c then
      (if start then Text.toUpper c else c) :: camel false cs
    else camel true cs

/-- A name that starts with a digit gets a letter before it. -/
def letterFirst (cs : List Char) : List Char :=
  match cs with
  | c :: _ => if Text.isDigit c then 'V' :: cs else cs
  | [] => []

/-- The type name for a view name, if that has a letter or a digit. -/
def typeName? (name : Text) : Option Text :=
  match letterFirst (camel true (Text.runes name)) with
  | [] => none
  | cs =>
    let t := Text.ofRunes cs
    some (if Text.endsWith (utf8 "View") t then t else t ++ utf8 "View")

/-- The name of a view: the declared name, else the file name up to its first dot, unless the dot comes
first. -/
def nameOf (declared path : Text) : Text :=
  if !declared.isEmpty then declared
  else
    let file := Path.base path
    match Text.cut? 0x2E file with
    | some (stem, _) => if stem.isEmpty then file else stem
    | none => file

/-- The name of the type of a view. -/
def typeOf (declared path : Text) : Text := (typeName? (nameOf declared path)).getD (utf8 "View")

/-- The extension of generated files. -/
def generatedExtension : Text := utf8 ".go"

/-- The path of the file generated from a template. -/
def outputPath (path : Text) : Text := path ++ generatedExtension

end Atmark.View
