import Atmark.Text.Basic
import Atmark.Text.Letter

/-!
White space at the ends of texts. `dedent` takes away the indentation that all lines share, so that
prose nested in a template starts at the margin.
-/
namespace Atmark.Text

/-- Drops from the end as long as the test holds. -/
def dropEndWhile {α : Type} (p : α → Bool) (xs : List α) : List α :=
  (xs.reverse.dropWhile p).reverse

/-- The text without the white space of any script at both ends. -/
def trim (t : Text) : Text :=
  joinPieces (dropEndWhile (isBlank ·.rune) ((pieces t).dropWhile (isBlank ·.rune)))

/-- A space or a tab. -/
def isIndent (b : UInt8) : Bool := b = 0x20 || b = 0x09

/-- A line feed or a carriage return. -/
def isLineBreak (b : UInt8) : Bool := b = 0x0A || b = 0x0D

/-- The text holds a line feed or a carriage return. -/
def breaksLine (t : Text) : Bool := t.any isLineBreak

/-- The spaces and tabs at the start of a line. -/
def indentOf (line : Text) : Text := line.takeWhile isIndent

/-- The longest common beginning of two texts. -/
def commonStart : Text → Text → Text
  | a :: s, b :: t => if a = b then a :: commonStart s t else []
  | _, _ => []

/-- The indentation shared by the lines that are not blank. -/
def commonIndent (lines : List Text) : Text :=
  match (lines.filter fun l => !(trim l).isEmpty).map indentOf with
  | [] => []
  | i :: is => is.foldl commonStart i

/-- The lines without their common indentation, trimmed as a whole and ended by a line feed. -/
def dedent (t : Text) : Text :=
  let lines := splitOn 0x0A t
  let margin := commonIndent lines
  let cutLine (l : Text) : Text := (strip? margin l).getD l
  trim (intercalate [0x0A] (lines.map cutLine)) ++ [0x0A]

end Atmark.Text
