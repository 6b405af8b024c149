import Atmark.Token.Basic

/-!
Nodes are what a parsed template consists of: code tokens, the parts of tags, runs of text, and the
constructs that write values. They no longer depend on whether markup or code was being read.
-/
namespace Atmark

/-- The ways in which an attribute value is written down when it is not an expression. -/
structure StaticValue where
  /-- Content of a quoted value. -/
  text : Option Text := none
  /-- The quote around `text` in the source. -/
  quote : Option UInt8 := none
  /-- An unquoted number. -/
  literal : Option Literal := none
  /-- An unquoted run of identifiers, dashes and numbers. -/
  run : List Token := []

/-- A node of a parsed template. -/
inductive Node where
  | ident (t : Ident)
  | literal (t : Literal)
  | punct (t : Punct)
  /-- A group of code, which may hold markup. -/
  | group (frame : Frame) (children : List Node)
  /-- The beginning of an opening tag. -/
  | tagStart (name : Text) (tokens : List Token)
  /-- The beginning of the tag of an element that has no children. -/
  | tagVoid (name : Text) (tokens : List Token)
  /-- A closing tag. -/
  | tagEnd (pos : Option Position) (name : Text) (tokens : List Token)
  /-- The end of an opening tag whose children follow. -/
  | closeStart (pos : Option Position) (space : Text)
  /-- The end of a tag closed in itself. -/
  | closeSelf (pos : Option Position) (space : Text)
  /-- The end of a void tag, with the slash it may have. -/
  | closeVoid (pos : Option Position) (space : Text) (slash : Option Punct)
  /-- An attribute name, with the literal if it is written as one. -/
  | attrName (pos : Option Position) (space : Text) (name : Text) (quoted : Option Literal)
  | attrEquals (pos : Option Position)
  /-- An attribute value: an expression, or one of the static forms. -/
  | attrValue (pos : Option Position) (fixed : StaticValue) (expr : List Node)
  | text (pos : Option Position) (content : Text)
  /-- Writes the value of an expression. -/
  | write (pos : Option Position) (expr : List Node)
  /-- Content of a file that is read after parsing. -/
  | external (pos : Option Position) (path includer : Text) (markdown : Bool)
  /-- The body of a function that returns the markup written in it. -/
  | closure (type : Ident) (body : Frame) (children : List Node)
  /-- A section that a layout renders by its name. -/
  | define (pos : Option Position) (name : Text) (children : List Node)

/-- A parsed attribute value. -/
structure AttrValue where
  pos : Option Position
  fixed : StaticValue
  expr : List Node

/-- A parsed attribute; one without value, as in `<input disabled>`, has none. -/
structure Attribute where
  name : Text
  value : Option AttrValue

namespace StaticValue

/-- The value when it is no expression: the first form present, in this order. -/
def content (v : StaticValue) : Text :=
  if !v.run.isEmpty then Token.sourceOf v.run
  else match v.literal with
    | some l => l.content
    | none => v.text.getD []

end StaticValue

namespace AttrValue

/-- The node of a value. -/
def node (v : AttrValue) : Node := .attrValue v.pos v.fixed v.expr

/-- The value, if it is known without running the view. -/
def static? (v : AttrValue) : Option Text :=
  if v.fixed.run.isEmpty && !v.expr.isEmpty then none else some v.fixed.content

end AttrValue

namespace Node

/-- Where the node stands, if it was read from a source. -/
def pos : Node → Option Position
  | .ident t => t.pos
  | .literal t => t.pos
  | .punct t => t.pos
  | .group f _ => f.pos
  | .tagStart _ ts | .tagVoid _ ts => ts.head?.bind Token.pos
  | .tagEnd p _ _ | .closeStart p _ | .closeSelf p _ | .closeVoid p _ _ => p
  | .attrName p _ _ _ | .attrEquals p | .attrValue p _ _ => p
  | .text p _ | .write p _ | .external p _ _ _ | .define p _ _ => p
  | .closure t _ _ => t.pos

/-- A statement can start after the node. -/
def endsStatement : Node → Bool
  | .punct t => t.char = ';'
  | .group .. | .closure .. | .tagEnd .. | .closeSelf .. | .closeVoid .. => true
  | .write .. | .text .. | .define .. | .external .. => true
  | _ => false

/-- A letter, a digit or an underscore, all ASCII. -/
def isWordByte (b : UInt8) : Bool :=
  b = 0x5F || (0x61 ≤ b && b ≤ 0x7A) || (0x41 ≤ b && b ≤ 0x5A) || (0x30 ≤ b && b ≤ 0x39)

/-- The node is a text that ends with a letter or a digit, so that a following `@` is inside a word. -/
def endsWithWord : Node → Bool
  | .text _ t => t.getLast?.any isWordByte
  | _ => false

/-- A colon before `ts` starts a path separator: another colon and an identifier follow it directly. -/
def isPathSeparator (t : Token) (ts : List Token) : Bool :=
  t.isPunct ':' && match ts with
    | u :: v :: _ => u.isPunct ':' && u.glued && v.isIdent && v.glued
    | _ => false

mutual

/-- A token as a node, with nothing read as markup. -/
def ofToken : Token → Node
  | .ident t => .ident t
  | .literal t => .literal t
  | .punct t => .punct t
  | .group f ts => .group f (ofTokensFrom false ts)

/-- Tokens as nodes, without the first one if it is the rest of a path separator. -/
def ofTokensFrom (skip : Bool) : List Token → List Node
  | [] => []
  | t :: ts =>
    if skip then ofTokensFrom false ts
    else if isPathSeparator t ts then .punct ⟨t.pos, t.space, '.'⟩ :: ofTokensFrom true ts
    else ofToken t :: ofTokensFrom false ts

end

/-- Tokens as nodes, with nothing read as markup. A path separator `::` before an identifier becomes
a dot. -/
def ofTokens (ts : List Token) : List Node := ofTokensFrom false ts

end Node
end Atmark
