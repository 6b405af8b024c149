import Atmark.Text.Basic
import Atmark.Text.Letter

/-!
Names in generated code: a letter or an underscore, then letters, digits and underscores, and none of
the words with a meaning of their own.
-/
namespace Atmark.Code

/-- The words that are no names in generated code. -/
def keywords : List Text :=
  ["break", "case", "chan", "const", "continue", "default", "defer", "else", "fallthrough", "for",
    "func", "go", "goto", "if", "import", "interface", "map", "package", "range", "return", "select",
    "struct", "switch", "type", "var"].map utf8

/-- The text is a name in generated code. -/
def isName (t : Text) : Bool :=
  match Text.runes t with
  | [] => false
  | c :: cs =>
    Text.isValid t && (c = '_' || Text.isLetter c) && cs.all Text.isWordChar && !keywords.contains t

end Atmark.Code
