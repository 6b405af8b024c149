import Atmark.Text.Trim
import Atmark.Token.Lex

/-!
The canonical layout of generated code: one statement a line without semicolons, one tab for each block
around it, and at most one empty line where the code has some. A short function body that is written on
one line stays there. Code with two statements on a line and nothing between them has no layout.
-/
namespace Atmark.Layout

/-- How a group is laid out: as part of a line, as a block of statements, or as the body of a function
whose header has so many bytes. -/
inductive Style where
  | plain
  | block
  | body (header : Nat)

/-- A token with the lines it starts and ends on, and its layout inside so many blocks. -/
structure Part where
  token : Token
  line : Nat
  lastLine : Nat
  render : Nat → Style → Option Text

namespace Part

/-- A line break stands before the token. -/
def startsLine (p : Part) : Bool := Text.breaksLine p.token.space

/-- The token is the word `w`. -/
def isWord (p : Part) (w : String) : Bool := p.token.isNamed w

/-- The word starts a statement whose header is followed by a block. -/
def isControl (p : Part) : Bool :=
  p.isWord "if" || p.isWord "for" || p.isWord "switch" || p.isWord "select"

/-- A line break after the token, which follows `before`, ends the statement. -/
def endsStatement (p : Part) (before : Option Part) : Bool :=
  match p.token with
  | .punct t =>
    (t.char = '+' || t.char = '-') && t.space.isEmpty && before.any (·.token.isPunct t.char)
  | _ => true

end Part

/-- Tabs for so many blocks. -/
def tabs (depth : Nat) : Text := List.replicate depth 0x09

/-- The line break between code on two lines of the source; an empty line stays. -/
def lineBreak (least lineBefore line : Nat) : Text :=
  List.replicate (max least (min 2 (line - lineBefore))) 0x0A

/-- Where the reading of a statement is: its parts so far, latest first, whether the header of a block
is being read, and whether a block was just read that only `else` can continue. -/
structure Reading where
  parts : List Part := []
  inHeader : Bool := false
  afterBlock : Bool := false

/-- The reading of a new statement that starts with a part. -/
def Reading.start (p : Part) : Reading := { parts := [p], inHeader := p.isControl }

/-- The reading after one more part of the same statement. -/
def Reading.add (r : Reading) (p : Part) : Reading :=
  let isBlock := r.inHeader && p.token.isGroup .brace
  let again := p.isWord "if" && r.parts.head?.any (·.isWord "else")
  { parts := p :: r.parts, inHeader := (r.inHeader && !isBlock) || again, afterBlock := isBlock }

/-- The statement of a reading, if it has any part. -/
def Reading.statement (r : Reading) : List (List Part) :=
  if r.parts.isEmpty then [] else [r.parts.reverse]

/-- The statements of a list of parts. Semicolons part them, except in the header of a block, and so do
line breaks after a token that can end a statement. -/
def statementsFrom (r : Reading) : List Part → Option (List (List Part))
  | [] => some r.statement
  | p :: ps =>
    if p.token.isPunct ';' && !r.inHeader then (statementsFrom {} ps).map (r.statement ++ ·)
    else match r.parts with
      | [] => statementsFrom (.start p) ps
      | last :: before =>
        if p.startsLine && !r.inHeader && last.endsStatement before.head? then
          (statementsFrom (.start p) ps).map (r.statement ++ ·)
        else if r.afterBlock && !p.isWord "else" then none
        else statementsFrom (r.add p) ps

/-- The statements of a list of parts. -/
def statements (ps : List Part) : Option (List (List Part)) := statementsFrom {} ps

/-- What is written before a part that follows `last`, inside so many blocks. -/
def gap (depth : Nat) (last : Option Part) (p : Part) (asBlock : Bool) : Text :=
  match last with
  | none => []
  | some l =>
    if asBlock then utf8 " "
    else if p.startsLine then 0x0A :: tabs (depth + 1)
    else if p.token.isPunct ',' || p.token.isPunct ';' then []
    else if l.token.isPunct ',' || l.token.isPunct ';' || !p.token.glued then utf8 " "
    else []

/-- Which braces of a line are blocks besides function bodies: all in a statement with a header, the
first token of any other statement, and none inside a group. -/
inductive Scope where
  | control
  | statement
  | inner

/-- The braces are a block in the scope, as the first token or not. -/
def Scope.hasBlock (s : Scope) (isFirst : Bool) : Bool :=
  match s with
  | .control => true
  | .statement => isFirst
  | .inner => false

/-- The parts of one line. `out` is what is written so far, `since` how long it was at the last
`func`. -/
def lineFrom (depth : Nat) (scope : Scope) (last : Option Part) (out : Text) (since : Option Nat) :
    List Part → Option Text
  | [] => some out
  | p :: ps => do
    let isBrace := p.token.isGroup .brace
    let style : Style :=
      if !isBrace then .plain
      else match since with
        | some n => .body (out.length - n)
        | none => if scope.hasBlock last.isNone then .block else .plain
    let asBlock := match style with
      | .plain => false
      | _ => true
    let before := out ++ gap depth last p asBlock
    let text ← p.render depth style
    let since := if p.isWord "func" then some before.length else if isBrace then none else since
    lineFrom depth scope (some p) (before ++ text) since ps

/-- A statement inside so many blocks. -/
def statementText (depth : Nat) (ps : List Part) : Option Text :=
  lineFrom depth (if ps.head?.any Part.isControl then .control else .statement) none [] none ps

/-- Statements on lines of their own after the line `line`, and the last line of the source they take. -/
def linesFrom (depth : Nat) (line : Nat) : List (List Part) → Option (Text × Nat)
  | [] => some ([], line)
  | ps :: rest => do
    let text ← statementText depth ps
    let start := (ps.head?.map (·.line)).getD line
    let stop := (ps.getLast?.map (·.lastLine)).getD line
    let (more, last) ← linesFrom depth stop rest
    return (lineBreak 1 line start ++ tabs depth ++ text ++ more, last)

/-- The inside of a block that opens on one line and closes on another. -/
def blockText (depth opened closed : Nat) (ps : List Part) : Option Text := do
  let (text, last) ← linesFrom (depth + 1) opened (← statements ps)
  return utf8 "\x7b" ++ text ++ lineBreak 1 last closed ++ tabs depth ++ utf8 "\x7d"

/-- A function body on one line, if its statements are few and short and none takes several lines. -/
def shortBody? (depth header : Nat) (ps : List Part) : Option Text := do
  let stmts ← statements ps
  let texts ← stmts.mapM (statementText depth)
  let body := Text.intercalate (utf8 "; ") texts
  if texts.length > 5 || header + body.length > 100 || body.contains 0x0A then none
  else if texts.isEmpty then some (utf8 "\x7b\x7d")
  else some (utf8 "\x7b " ++ body ++ utf8 " \x7d")

/-- A group as part of a line. -/
def plainText (depth : Nat) (f : Frame) (ps : List Part) : Option Text := do
  let inner ← lineFrom depth .inner none [] none ps
  let start := if ps.head?.any Part.startsLine then 0x0A :: tabs (depth + 1) else []
  let stop := if Text.breaksLine f.closeSpace then 0x0A :: tabs depth else []
  return f.delim.opening ++ start ++ inner ++ stop ++ f.delim.closing

/-- A group in a style. -/
def groupText (depth : Nat) (style : Style) (f : Frame) (opened closed : Nat) (ps : List Part) :
    Option Text :=
  match style with
  | .plain => plainText depth f ps
  | .block => blockText depth opened closed ps
  | .body header =>
    match if opened = closed then shortBody? depth header ps else none with
    | some text => some text
    | none => blockText depth opened closed ps

/-- The line of a token. -/
def lineOf (t : Token) : Nat := (t.pos.map (·.line)).getD 1

mutual

/-- A token with its layout. -/
def part (t : Token) : Part :=
  let line := lineOf t
  let lastLine := line + t.source.count 0x0A
  ⟨t, line, lastLine, match t with
    | .group f ts => fun depth style => groupText depth style f line lastLine (partsOf ts)
    | .ident i => fun _ _ => some i.name
    | .literal l => fun _ _ => some l.raw
    | .punct p => fun _ _ => some (String.utf8EncodeChar p.char)⟩

/-- Tokens with their layout. -/
def partsOf : List Token → List Part
  | [] => []
  | t :: ts => part t :: partsOf ts

end

/-- The parts of some code. -/
def parts? (code : Text) : Option (List Part) :=
  match Token.lex code with
  | .ok (ts, _) => some (partsOf ts)
  | .error _ => none

/-- The body of a function, braces included, whose code starts on the line of the opening brace. -/
def functionBody (code : Text) : Option Text := do
  blockText 0 1 (1 + code.count 0x0A) (← parts? code)

/-- Declarations after others: those of another kind are set off by an empty line. -/
def declarationsFrom (before : Option (List Part)) : List (List Part) → Option Text
  | [] => some []
  | ps :: rest => do
    let text ← statementText 0 ps
    let more ← declarationsFrom (some ps) rest
    match before with
    | none => return text ++ more
    | some b =>
      let word (qs : List Part) : Option Text := qs.head?.map (·.token.brief)
      let least := if word b = word ps then 1 else 2
      let line := (b.getLast?.map (·.lastLine)).getD 1
      return lineBreak least line ((ps.head?.map (·.line)).getD 1) ++ text ++ more

/-- Declarations outside of functions. -/
def declarations (code : Text) : Option Text := do
  declarationsFrom none (← statements (← parts? code))

/-- The names of a field and the rest of it; an embedded field has no name. -/
def fieldParts : List Part → List Part × List Part
  | n :: c :: ps =>
    if n.token.isIdent && c.token.isPunct ',' then
      let (names, type) := fieldParts ps
      (n :: c :: names, type)
    else if n.token.isIdent && !c.token.isPunct '.' then ([n], c :: ps)
    else ([], n :: c :: ps)
  | ps => ([], ps)

/-- A field of a structure: the text of its names and of its type, and its lines. -/
structure Field where
  names : Text
  type : Text
  line : Nat
  lastLine : Nat

/-- The layout of a field. -/
def field (ps : List Part) : Option Field := do
  let (names, type) := fieldParts ps
  return ⟨← statementText 1 names, ← statementText 1 type, (ps.head?.map (·.line)).getD 1,
    (ps.getLast?.map (·.lastLine)).getD 1⟩

/-- How wide the names are in the run of fields on neighbouring lines at the head of a list. -/
def namesWidth : List Field → Nat
  | [] => 0
  | f :: fs =>
    if f.names.isEmpty then 0
    else
      let next := match fs with
        | g :: _ => if g.line ≤ f.lastLine + 1 then namesWidth fs else 0
        | [] => 0
      max (Text.runes f.names).length next

/-- Fields after the line `line`, in a run whose names take `width` characters. -/
def fieldLines (line width : Nat) : List Field → Text
  | [] => []
  | f :: fs =>
    let goesOn := f.line ≤ line + 1 && 0 < width && !f.names.isEmpty
    let width := if goesOn then width else namesWidth (f :: fs)
    let pad := List.replicate (width - (Text.runes f.names).length + 1) 0x20
    let text := if f.names.isEmpty then f.type else f.names ++ pad ++ f.type
    lineBreak 1 line f.line ++ tabs 1 ++ text ++
      fieldLines f.lastLine (if f.names.isEmpty then 0 else width) fs

/-- Fields of a structure, on lines of their own after the first. -/
def fields (code : Text) : Option Text := do
  let fs ← (← statements (← parts? code)).mapM field
  return fieldLines 0 0 fs

end Atmark.Layout
