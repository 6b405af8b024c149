import Atmark.Decimal.Written

/-!
Values that a page can show. A value that knows its own markup shows that; else its own text; else its
error text. Nothing is escaped.
-/
namespace Atmark.Page

/-- A member of a compound value. -/
inductive Member where
  | text (t : Text)
  | int (i : Int)
  deriving DecidableEq, Repr

/-- A value to be shown. -/
inductive Value where
  /-- No value: nothing is shown. -/
  | absent
  /-- Texts, with or without markup, and bytes. -/
  | text (t : Text)
  /-- A value that can tell its markup, its text or its error text; it tells at least one. -/
  | telling (markup string error : Option Text)
  | bool (b : Bool)
  | int (i : Int)
  | double (x : Decimal.Number)
  | single (x : Decimal.Number)
  | list (items : List Member)
  | map (entries : List (Text × Member))
  | record (fields : List Member)
  /-- A reference to nothing. -/
  | dangling
  deriving Repr

/-- The text of a member. -/
def Member.show : Member → Text
  | .text t => t
  | .int i => Text.ofInt i

/-- Numbers of 32 bits are shown with a power of ten where the exponent leaves this range. -/
def singleStyle : Decimal.Style := .general (-4) 6

/-- The texts with spaces between them. -/
def spaced (ts : List Text) : Text := Text.intercalate (utf8 " ") ts

/-- What is shown of a value. The keys of a map are in order. -/
def Value.show : Value → Text
  | .absent => []
  | .text t => t
  | .telling markup string error => ((markup.or string).or error).getD []
  | .bool b => utf8 (if b then "true" else "false")
  | .int i => Text.ofInt i
  | .double x => Decimal.double.write .positional x
  | .single x => Decimal.single.write singleStyle x
  | .list items => utf8 "[" ++ spaced (items.map Member.show) ++ utf8 "]"
  | .map entries =>
    let sorted := entries.mergeSort fun a b => Text.le a.1 b.1
    utf8 "map[" ++ spaced (sorted.map fun e => e.1 ++ utf8 ":" ++ e.2.show) ++ utf8 "]"
  | .record fields => utf8 "\x7b" ++ spaced (fields.map Member.show) ++ utf8 "\x7d"
  | .dangling => utf8 "<nil>"

end Atmark.Page
