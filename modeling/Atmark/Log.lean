import Atmark.Text.Letter
import Atmark.Text.Quoted

/-!
Records of what a compilation does, and the lines that show them: names and values, where a value is
quoted if it would not be clear without quotes.
-/
namespace Atmark

/-- How much a record matters. -/
inductive Level where
  | debug
  | info
  | warning
  deriving DecidableEq, Repr

/-- A message with named values. -/
structure Record where
  message : String
  fields : List (String × Text)
  level : Level := .debug

namespace Level

/-- The word for a level. -/
def label : Level → String
  | .debug => "DEBUG"
  | .info => "INFO"
  | .warning => "WARN"

/-- The level is one at which a reader who asks for no details is told. -/
def matters : Level → Bool
  | .warning => true
  | _ => false

end Level

namespace Record

/-- The character can stand in a value without quotes. -/
def isClear (p : Text.Piece) : Bool :=
  match p.char with
  | none => false
  | some c =>
    if c.toNat < 0x80 then 0x20 < c.toNat && c ≠ '"' && c ≠ '='
    else c ≠ Text.replacement && !Text.isBlank c && Text.isPrintable c

/-- A value as it is shown. -/
def shown (t : Text) : Text :=
  if t.isEmpty || !(Text.pieces t).all isClear then Text.quote t else t

/-- The line of a record. -/
def line (r : Record) : Text :=
  utf8 "level=" ++ utf8 r.level.label ++ utf8 " msg=" ++ shown (utf8 r.message) ++
    (r.fields.flatMap fun (k, v) => utf8 " " ++ utf8 k ++ utf8 "=" ++ shown v) ++ utf8 "\n"

end Record
end Atmark
