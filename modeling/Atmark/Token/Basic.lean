import Atmark.Text.Basic
import Atmark.Text.Quoted

/-!
Token trees. A source is a list of identifiers, literals, punctuation characters and groups; a group
holds the tokens between a pair of delimiters. Each token keeps the white space before it, and a group
also the white space before its closing delimiter, so a token list still spells its source
(`sourceWithSpace`).
-/
namespace Atmark

/-- Where a token stands: line and column from one, indexes of the first and the last byte. -/
structure Position where
  line : Nat
  column : Nat
  start : Nat
  stop : Nat
  deriving DecidableEq, Repr, Inhabited

namespace Position

/-- The position of an error about nothing that was written. -/
def zero : Position := ⟨0, 0, 0, 0⟩

/-- The beginning of a source. -/
def origin : Position := ⟨1, 1, 0, 0⟩

/-- The same beginning with another end. -/
def withStop (p : Position) (stop : Nat) : Position := { p with stop }

/-- Line and column with a colon between them. -/
def label (p : Position) : Text := Text.ofNat p.line ++ utf8 ":" ++ Text.ofNat p.column

end Position

/-- The kinds of literals. -/
inductive LiteralKind where
  | string | rawString | rune | int | float
  deriving DecidableEq, Repr

/-- The name of a kind of literal in messages. -/
def LiteralKind.label : LiteralKind → String
  | .string => "string"
  | .rawString => "raw string"
  | .rune => "rune"
  | .int => "int"
  | .float => "float"

/-- The delimiters of groups. Only generated groups have none. -/
inductive Delimiter where
  | parenthesis | brace | bracket | none
  deriving DecidableEq, Repr

namespace Delimiter

/-- The opening delimiter. -/
def opening : Delimiter → Text
  | .parenthesis => [0x28]
  | .brace => [0x7B]
  | .bracket => [0x5B]
  | .none => []

/-- The closing delimiter. -/
def closing : Delimiter → Text
  | .parenthesis => [0x29]
  | .brace => [0x7D]
  | .bracket => [0x5D]
  | .none => []

/-- The name of a delimiter in messages. -/
def label : Delimiter → String
  | .parenthesis => "parenthesis"
  | .brace => "brace"
  | .bracket => "bracket"
  | .none => "none"

/-- Statements may stand between the delimiters. -/
def holdsStatements : Delimiter → Bool
  | .brace | .none => true
  | .parenthesis | .bracket => false

end Delimiter

/-- An identifier. -/
structure Ident where
  pos : Option Position
  space : Text
  name : Text
  deriving DecidableEq, Repr

/-- A literal, spelled as in the source with its quotes. -/
structure Literal where
  pos : Option Position
  space : Text
  kind : LiteralKind
  raw : Text
  deriving DecidableEq, Repr

/-- A punctuation character, any character that starts no other token. -/
structure Punct where
  pos : Option Position
  space : Text
  char : Char
  deriving DecidableEq, Repr

/-- What stands around the tokens of a group. The position spans both delimiters. -/
structure Frame where
  pos : Option Position
  space : Text
  delim : Delimiter
  closeSpace : Text
  deriving DecidableEq, Repr

/-- A token tree. -/
inductive Token where
  | ident (t : Ident)
  | literal (t : Literal)
  | punct (t : Punct)
  | group (frame : Frame) (children : List Token)
  deriving Repr

namespace Literal

/-- A string, raw or not. -/
def isString (l : Literal) : Bool := l.kind = .string || l.kind = .rawString

/-- The spelling between the quotes, of a number the whole spelling. -/
def content (l : Literal) : Text :=
  match l.kind with
  | .string | .rawString | .rune => l.raw.tail.dropLast
  | .int | .float => l.raw

/-- The value of a string with its escapes read, of any other literal its spelling. -/
def value? (l : Literal) : Option Text :=
  if l.isString then Text.unquote? l.raw else some l.raw

/-- The string literal that stands for a text. -/
def ofText (pos : Option Position) (t : Text) : Literal := ⟨pos, [], .string, Text.quote t⟩

end Literal

namespace Token

/-- Where the token stands, if it was read from a source. -/
def pos : Token → Option Position
  | .ident t => t.pos
  | .literal t => t.pos
  | .punct t => t.pos
  | .group f _ => f.pos

/-- The white space before the token. -/
def space : Token → Text
  | .ident t => t.space
  | .literal t => t.space
  | .punct t => t.space
  | .group f _ => f.space

/-- No white space stands before the token. -/
def glued (t : Token) : Bool := t.space.isEmpty

/-- The token after other white space. -/
def withSpace (space : Text) : Token → Token
  | .ident t => .ident { t with space }
  | .literal t => .literal { t with space }
  | .punct t => .punct { t with space }
  | .group f ts => .group { f with space } ts

/-- The punctuation character `c`. -/
def isPunct (c : Char) : Token → Bool
  | .punct t => t.char = c
  | _ => false

/-- An identifier. -/
def isIdent : Token → Bool
  | .ident _ => true
  | _ => false

/-- The identifier `name`. -/
def isNamed (name : String) : Token → Bool
  | .ident t => t.name = utf8 name
  | _ => false

/-- A group between the given delimiters. -/
def isGroup (d : Delimiter) : Token → Bool
  | .group f _ => f.delim = d
  | _ => false

mutual

/-- The source of a token without the white space before it. -/
def source : Token → Text
  | .ident t => t.name
  | .literal t => t.raw
  | .punct t => String.utf8EncodeChar t.char
  | .group f ts => f.delim.opening ++ sourceWithSpace ts ++ f.closeSpace ++ f.delim.closing

/-- The source of a token list, the white space before its first token included. -/
def sourceWithSpace : List Token → Text
  | [] => []
  | t :: ts => t.space ++ source t ++ sourceWithSpace ts

end

/-- The source of a token list without the white space before its first token. -/
def sourceOf : List Token → Text
  | [] => []
  | t :: ts => source t ++ sourceWithSpace ts

mutual

/-- A short spelling for comparisons: white space at both ends of a group is left out. -/
def brief : Token → Text
  | .ident t => t.name
  | .literal t => t.raw
  | .punct t => String.utf8EncodeChar t.char
  | .group f ts => f.delim.opening ++ briefFirst ts ++ f.delim.closing

/-- The short spelling of a list from its first token on. -/
def briefFirst : List Token → Text
  | [] => []
  | t :: ts => brief t ++ briefRest ts

/-- The short spelling of the tokens after the first. -/
def briefRest : List Token → Text
  | [] => []
  | t :: ts => t.space ++ brief t ++ briefRest ts

end

mutual

/-- The number of tokens in a tree. -/
def weight : Token → Nat
  | .ident _ => 1
  | .literal _ => 1
  | .punct _ => 1
  | .group _ ts => weights ts + 1

/-- The number of tokens in a list of trees. -/
def weights : List Token → Nat
  | [] => 0
  | t :: ts => weight t + weights ts

end

/-- An identifier without white space. -/
def word (pos : Option Position) (name : Text) : Token := .ident ⟨pos, [], name⟩

/-- A punctuation character without white space. -/
def mark (pos : Option Position) (c : Char) : Token := .punct ⟨pos, [], c⟩

/-- A group without white space. -/
def enclose (pos : Option Position) (d : Delimiter) (ts : List Token) : Token :=
  .group ⟨pos, [], d, []⟩ ts

/-- The first `n` characters of a text, the last three replaced by dots if it is longer. -/
def abbreviate (t : Text) (n : Nat) : Text :=
  let rs := Text.runes t
  if rs.length ≤ n then t else Text.ofRunes (rs.take (n - 3)) ++ utf8 "..."

/-- How a message names a token. -/
def describe (t : Token) : Text :=
  match t with
  | .ident i => utf8 "identifier " ++ i.name
  | .literal l => utf8 l.kind.label ++ utf8 " literal " ++ l.raw
  | .group f _ => utf8 f.delim.label ++ utf8 " group " ++ abbreviate (source t) 24
  | .punct p => [0x27] ++ String.utf8EncodeChar p.char ++ [0x27]

end Token
end Atmark
