import Atmark.Content
import Atmark.Directive.Section
import Atmark.Parse.Engine

/-!
From nodes to code. Markup becomes calls that write its text to the output buffer, expressions become
calls that write their value, and code is copied. `resolve` first reads the contents that were left for
later, so that `lower` is a function of the nodes alone.
-/
namespace Atmark.Code

/-- Reads the content of an external node. -/
def externalText (settings : Settings) (pos : Option Position) (path includer : Text)
    (markdown : Bool) : WorldM Text := do
  let note (message : String) (fields : List (String × Text)) : WorldM Unit :=
    WorldM.note message (("component", utf8 "lower") :: fields)
  let (result, tried) := Content.read settings.files includer path pos
  if let some attempt := tried then note "content fallback" (Content.fallbackFields attempt)
  match result with
  | .error e => throw (e.withPath includer)
  | .ok (data, file) =>
    note "external content"
      [("file", file), ("markdown", utf8 (if markdown then "true" else "false"))]
    if !markdown then return data
    match Content.renderMarkdown settings data pos with
    | .ok html => return html
    | .error e => throw (e.withPath includer)

mutual

/-- A node with the external contents in it read. -/
def resolveNode (settings : Settings) : Node → WorldM Node
  | .external pos path includer markdown => do
    return .text pos (← externalText settings pos path includer markdown)
  | .group f ns => return .group f (← resolve settings ns)
  | .attrValue pos v e => return .attrValue pos v (← resolve settings e)
  | .write pos e => return .write pos (← resolve settings e)
  | .closure type f ns => return .closure type f (← resolve settings ns)
  | .define pos name ns => return .define pos name (← resolve settings ns)
  | n => return n

/-- Nodes with the external contents in them read, in order. -/
def resolve (settings : Settings) : List Node → WorldM (List Node)
  | [] => return []
  | n :: ns => return (← resolveNode settings n) :: (← resolve settings ns)

end

/-- A piece of code: a statement, which a semicolon parts from the code before it, or plain code. -/
structure Piece where
  tokens : List Token
  isStatement : Bool

/-- The pieces one after another, after the token `last`. -/
def joinFrom (last : Option Token) : List Piece → List Token
  | [] => []
  | p :: ps =>
    let separator :=
      if p.isStatement && last.any (!·.isPunct ';') then
        [Token.mark (p.tokens.head?.bind Token.pos) ';']
      else []
    separator ++ p.tokens ++ joinFrom (p.tokens.getLast?.or last) ps

/-- The pieces one after another. -/
def join (ps : List Piece) : List Token := joinFrom none ps

/-- The name of the package that the generated code writes with. -/
def runtimeName : Text := utf8 "runtime"

/-- A call of a method of the buffer. -/
def call (buf : Text) (method : String) (args : List Token) (pos : Option Position) : Piece :=
  let pos := pos.or (some .origin)
  ⟨[.word pos buf, .mark pos '.', .word pos (utf8 method), .enclose pos .parenthesis args,
    .mark pos ';'], true⟩

/-- Writes a text. -/
def writeText (buf : Text) (t : Text) (pos : Option Position) : Piece :=
  call buf "WriteLiteral" [.literal (.ofText pos t)] pos

/-- The tokens without the white space before the first. -/
def unspaced : List Token → List Token
  | [] => []
  | t :: ts => t.withSpace [] :: ts

/-- Writes the value of an expression. -/
def writeValue (buf : Text) (expr : List Token) (pos : Option Position) : Piece :=
  call buf "WriteValue" (unspaced expr) pos

/-- Writes a pending text, if there is any. -/
def flush (buf : Text) (pending : Text) (pos : Option Position) : List Piece :=
  if pending.isEmpty then [] else [writeText buf pending pos]

/-- A value between quotes: double ones, or single ones if it holds double but no single quotes. -/
def quoteValue (v : Text) : Text :=
  if v.contains 0x22 && !v.contains 0x27 then 0x27 :: v ++ [0x27] else 0x22 :: v ++ [0x22]

/-- What is written for a static value. The quotes of the source are kept if they can be. -/
def staticText (v : StaticValue) : Text :=
  match v.run.isEmpty && v.literal.isNone, v.text, v.quote with
  | true, some t, some q => if t.contains q then quoteValue t else q :: t ++ [q]
  | _, _, _ => quoteValue v.content

/-- What is written for an attribute name; white space parts it from what comes before. -/
def nameText (space name : Text) (quoted : Option Literal) : Text :=
  (if space.isEmpty then utf8 " " else space) ++ (quoted.map (·.raw)).getD name

/-- Defines a section whose body is code. -/
def defineCall (buf : Text) (pos : Option Position) (name : Text) (body : List Token) : Piece :=
  let params := Token.enclose pos .parenthesis
    [.word pos buf, .punct ⟨pos, utf8 " ", '*'⟩, .word pos runtimeName, .mark pos '.',
      .word pos (utf8 "Buffer")]
  let args := Token.enclose pos .parenthesis
    [.literal (.ofText pos name), .mark pos ',', .ident ⟨pos, utf8 " ", utf8 "func"⟩, params,
      .group ⟨pos, utf8 " ", .brace, []⟩ body]
  ⟨[.word pos Directive.contextName, .mark pos '.', .word pos (utf8 "DefineSection"), args,
    .mark pos ';'], true⟩

/-- The type and the body of a function that returns the markup its code writes. -/
def closureCode (buf : Text) (type : Ident) (f : Frame) (body : List Token) : Piece :=
  let pos := type.pos
  let start : List Token :=
    [.word pos buf, .punct ⟨pos, utf8 " ", ':'⟩, .mark pos '=', .ident ⟨pos, utf8 " ", runtimeName⟩,
      .mark pos '.', .word pos (utf8 "NewBuffer"), .enclose pos .parenthesis [], .mark pos ';']
  let separator : List Token :=
    if body.getLast?.any (!·.isPunct ';') then [.mark pos ';'] else []
  let stop : List Token :=
    [.word pos (utf8 "return"), .word pos type.name, .enclose pos .parenthesis
      [.word pos buf, .mark pos '.', .word pos (utf8 "String"), .enclose pos .parenthesis []]]
  ⟨[.ident ⟨pos, utf8 " ", type.name⟩,
    .group ⟨f.pos, utf8 " ", .brace, []⟩ (start ++ body ++ separator ++ stop)], false⟩

mutual

/-- The code of a node that is not a text. -/
def nodePieces (buf : Text) : Node → List Piece
  | .ident t => [⟨[.ident t], false⟩]
  | .literal t => [⟨[.literal t], false⟩]
  | .punct t => [⟨[.punct t], false⟩]
  | .group f ns => [⟨[.group f (join (piecesFrom buf [] none ns))], false⟩]
  | .tagStart name ts | .tagVoid name ts =>
    [writeText buf (utf8 "<" ++ name) (ts.head?.bind Token.pos)]
  | .tagEnd pos name _ => [writeText buf (utf8 "</" ++ name ++ utf8 ">") pos]
  | .closeStart pos space => [writeText buf (space ++ utf8 ">") pos]
  | .closeSelf pos space => [writeText buf (space ++ utf8 "/>") pos]
  | .closeVoid pos space slash =>
    [writeText buf (space ++ utf8 (if slash.isSome then "/>" else ">")) pos]
  | .attrName pos space name quoted => [writeText buf (nameText space name quoted) pos]
  | .attrEquals pos => [writeText buf (utf8 "=") pos]
  | .attrValue pos v e =>
    if v.run.isEmpty && !e.isEmpty then
      [writeText buf [0x22] pos, writeValue buf (join (piecesFrom buf [] none e)) pos,
        writeText buf [0x22] pos]
    else [writeText buf (staticText v) pos]
  | .text pos t => flush buf t pos
  | .write pos e => [writeValue buf (join (piecesFrom buf [] none e)) pos]
  | .external .. => []
  | .closure type f ns => [closureCode buf type f (join (piecesFrom buf [] none ns))]
  | .define pos name ns => [defineCall buf pos name (join (piecesFrom buf [] none ns))]

/-- The code of nodes after a pending text at a position. -/
def piecesFrom (buf : Text) (pending : Text) (pos : Option Position) : List Node → List Piece
  | [] => flush buf pending pos
  | n :: ns => match n with
    | .text p t => piecesFrom buf (pending ++ t) (if pending.isEmpty then p else pos) ns
    | n => flush buf pending pos ++ nodePieces buf n ++ piecesFrom buf [] none ns

end

/-- The code that writes the nodes to the buffer `buf`. -/
def lower (buf : Text) (ns : List Node) : List Token := join (piecesFrom buf [] none ns)

/-- Reads the external contents and lowers. -/
def ofNodes (settings : Settings) (ns : List Node) : WorldM (List Token) := do
  return lower settings.buffer (← resolve settings ns)

end Atmark.Code
