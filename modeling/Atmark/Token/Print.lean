import Atmark.Token.Basic
import Atmark.Text.Trim

/-!
Printing tokens as source code. White space read from a source is kept; generated tokens get a space
only where two words would merge, and a line break after a semicolon and inside braces, so that
statements stay apart.
-/
namespace Atmark.Token

/-- A character that would merge with a word beside it. -/
def isWordChar (c : Char) : Bool := c = '_' || c.isAlphanum || 0x80 ≤ c.toNat

/-- The last character written, after `t` was written too. -/
def lastChar (last : Option Char) (t : Text) : Option Char :=
  match (Text.pieces t).getLast? with
  | some p => some p.rune
  | none => last

/-- The first character of a text; nothing counts as the replacement character. -/
def firstChar (t : Text) : Char :=
  match Text.pieces t with
  | p :: _ => p.rune
  | [] => Text.replacement

/-- The first character of a token. -/
def first : Token → Char
  | .ident t => firstChar t.name
  | .literal t => firstChar t.raw
  | .punct t => t.char
  | .group f _ => firstChar f.delim.opening

/-- What is written before a token after the character `last`. -/
def gap (last : Option Char) (t : Token) : Text :=
  if !t.glued then t.space
  else if last.any isWordChar && isWordChar t.first then utf8 " "
  else []

/-- A line break is written after a semicolon that no white space follows. -/
def breakAfter (t : Token) (next : Option Token) : Text :=
  if t.isPunct ';' && next.all glued then utf8 "\n" else []

/-- What is written before a closing brace. -/
def beforeBrace (last : Option Char) (isEmpty : Bool) (closeSpace : Text) : Text :=
  let space := if last = some '\n' then closeSpace.dropWhile Text.isLineBreak else closeSpace
  if !space.isEmpty then space
  else if last ≠ some '\n' && !isEmpty then utf8 "\n"
  else []

/-- What is written before a closing delimiter other than a brace: a line break would end a statement
there, so white space with one is left out. -/
def beforeCloser (closeSpace : Text) : Text := if Text.breaksLine closeSpace then [] else closeSpace

mutual

/-- A token as source code after the character `last`. -/
def print (last : Option Char) : Token → Text
  | .ident t => gap last (.ident t) ++ t.name
  | .literal t => gap last (.literal t) ++ t.raw
  | .punct t => gap last (.punct t) ++ String.utf8EncodeChar t.char
  | .group f ts =>
    let head := gap last (.group f ts) ++ f.delim.opening
    if f.delim = .brace then
      let head := if ts.head?.any glued then head ++ utf8 "\n" else head
      let body := head ++ printAll (lastChar last head) ts
      body ++ beforeBrace (lastChar last body) ts.isEmpty f.closeSpace ++ f.delim.closing
    else
      head ++ printAll (lastChar last head) ts ++ beforeCloser f.closeSpace ++ f.delim.closing

/-- A token list as source code after the character `last`. -/
def printAll (last : Option Char) : List Token → Text
  | [] => []
  | t :: ts =>
    let out := print last t ++ breakAfter t ts.head?
    out ++ printAll (lastChar last out) ts

end

/-- A token list as source code. -/
def format (ts : List Token) : Text := printAll none ts

end Atmark.Token
