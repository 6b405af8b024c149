import Atmark.Parse.Expression

/-!
Tags: names, attributes and the end of a tag. An attribute is complete as soon as its value is, so what
follows starts a new one; a name with no `=` after it is an attribute without value.
-/
namespace Atmark

/-- The token can start the name of a tag. -/
def Token.startsTagName : Token → Bool
  | .ident _ => true
  | .punct p => p.char = '!' || p.char = '-' || p.char = '_'
  | _ => false

/-- The token can continue the name of a tag. -/
def Token.continuesTagName : Token → Bool
  | .literal l => l.kind = .int
  | t => t.startsTagName

/-- The tokens of a tag name from its second on. -/
def gluedTagName : List Token → List Token
  | t :: ts => if t.glued && t.continuesTagName then t :: gluedTagName ts else []
  | [] => []

/-- The tokens of the tag name at the head of a list. -/
def tagNameTokens : List Token → List Token
  | t :: ts => if t.continuesTagName then t :: gluedTagName ts else []
  | [] => []

/-- The name that the tokens of a tag name spell. -/
def tagName (ts : List Token) : Text := ts.flatMap Token.brief

/-- The token continues an unquoted attribute value. -/
def Token.continuesRun (t : Token) : Bool :=
  t.glued && match t with
    | .ident _ => true
    | .literal l => l.kind = .int || l.kind = .float
    | .punct p => p.char = '-' || p.char = '_'
    | .group .. => false

/-- The name of an attribute whose value may follow. -/
structure AttrKey where
  text : Text
  quoted : Option Literal
  space : Text
  pos : Option Position

/-- How a tag ends. -/
structure TagEnd where
  slash : Option Punct
  space : Text
  pos : Option Position

/-- The attributes of a tag read so far, latest first, and the name being read. -/
structure TagReading where
  nodes : List Node := []
  attributes : List Attribute := []
  key : Option AttrKey := none

namespace TagReading

/-- The node of an attribute name. -/
def keyNode (k : AttrKey) : Node := .attrName k.pos k.space k.text k.quoted

/-- The attribute being read has no value. -/
def withoutValue (r : TagReading) : TagReading :=
  match r.key with
  | none => r
  | some k => ⟨keyNode k :: r.nodes, ⟨k.text, none⟩ :: r.attributes, none⟩

/-- The attribute `k` has a value, after the equals sign at a position. -/
def withValue (r : TagReading) (k : AttrKey) (equals : Option Position) (v : AttrValue) : TagReading :=
  ⟨v.node :: .attrEquals equals :: keyNode k :: r.nodes, ⟨k.text, some v⟩ :: r.attributes, none⟩

/-- A new attribute name starts with a token. -/
def startKey (r : TagReading) (t : Token) : TagReading :=
  let r := r.withoutValue
  match t with
  | .literal l => { r with key := some ⟨l.content, some l, l.space, l.pos⟩ }
  | t => { r with key := some ⟨t.brief, none, t.space, t.pos⟩ }

/-- A token of an attribute name: it continues the name it is glued to, else it starts a new one. -/
def addKey (r : TagReading) (t : Token) : TagReading :=
  match r.key with
  | some k =>
    if t.glued && k.quoted.isNone then { r with key := some { k with text := k.text ++ t.brief } }
    else r.startKey t
  | none => r.startKey t

end TagReading

/-- The tokens of a value between apostrophes and the white space before the closing one. -/
def untilApostrophe : List Token → Option (List Token × Text)
  | [] => none
  | t :: ts =>
    if t.isPunct '\x27' then some ([], t.space)
    else (untilApostrophe ts).map fun (us, space) => (t :: us, space)

namespace Tools
open ParseM

/-- Reads the expression after `@` in the value of an attribute. -/
def valueExpression (t : Tools) (marker : Punct) (attr : Text) : ParseM (List Node) := do
  skip 1
  match ← peek with
  | none => fail marker.pos (.missingValueExpression attr)
  | some next =>
    if !next.glued then fail marker.pos (.missingValueExpression attr)
    match next with
    | .ident _ => t.expression
    | .literal l =>
      skip 1
      return [.literal l]
    | .group f ts =>
      if f.delim = .parenthesis then
        skip 1
        let expr ← t.region f ts false
        if expr.isEmpty then fail f.pos (.emptyValueExpression attr)
        return expr
      else unexpected next (.afterMarkerInValue attr)
    | .punct p =>
      if p.char = '&' then t.expression else unexpected next (.afterMarkerInValue attr)

/-- Reads the unquoted value at the head of `t :: ts`. -/
def unquotedValue (t : Token) (ts : List Token) : ParseM StaticValue := do
  let run := t :: ts.takeWhile Token.continuesRun
  skip run.length
  return { run }

/-- Reads the value at the head of `tok :: ts` of the attribute `attr` of the tag `tag`. -/
def attrValue (t : Tools) (tag attr : Text) (tok : Token) (ts : List Token) : ParseM AttrValue := do
  match tok with
  | .literal l =>
    skip 1
    if l.kind = .int || l.kind = .float then return ⟨tok.pos, { literal := some l }, []⟩
    let quote := l.raw.head?.filter fun q => q == 0x22 || q == 0x27
    return ⟨tok.pos, { text := some l.content, quote }, []⟩
  | .ident _ => return ⟨tok.pos, ← unquotedValue tok ts, []⟩
  | .punct p =>
    if p.char = '\x27' then
      match untilApostrophe ts with
      | none => fail p.pos .openValue
      | some (us, space) =>
        skip (us.length + 2)
        return ⟨tok.pos,
          { text := some (Token.sourceWithSpace us ++ space), quote := some 0x27 }, []⟩
    else if p.char = '-' || p.char = '_' then return ⟨tok.pos, ← unquotedValue tok ts, []⟩
    else if p.char = '@' then
      let expr ← t.valueExpression p attr
      note "attribute expression" [("tag", tag), ("attribute", attr)]
      return ⟨tok.pos, {}, expr⟩
    else if p.char = '>' || p.char = '/' then fail p.pos (.missingValue attr tag)
    else unexpected tok (.inValue attr)
  | .group .. => unexpected tok (.inValue attr)

/-- What is being read in a tag: a name, or the value after the equals sign of a name. -/
inductive TagFocus where
  | name
  | value (key : AttrKey) (equals : Option Position)

/-- Reads the attributes of a tag up to its end. Each step takes a token, so as many steps as tokens
are enough. -/
def attributesWithin (t : Tools) (lt : Option Position) (tag : Text) :
    Nat → TagReading → TagFocus → ParseM (TagReading × TagEnd)
  | 0, _, _ => throw .exhausted
  | n + 1, r, focus => do
    checkStop
    match ← rest with
    | [] => fail lt (.openTag tag)
    | tok :: ts =>
      setLast tok.pos
      match focus with
      | .value k equals =>
        let v ← t.attrValue tag k.text tok ts
        attributesWithin t lt tag n (r.withValue k equals v) .name
      | .name =>
        match tok with
        | .punct p =>
          if p.char = '>' then
            skip 1
            return (r.withoutValue, ⟨none, p.space, p.pos⟩)
          else if p.char = '/' then
            if ts.head?.any fun gt => gt.isPunct '>' && gt.glued then
              skip 2
              return (r.withoutValue, ⟨some p, p.space, p.pos⟩)
            else fail p.pos (.loneSlash tag)
          else if p.char = '=' then
            match r.key with
            | none => fail p.pos (.earlyEquals tag)
            | some k =>
              skip 1
              attributesWithin t lt tag n r (.value k p.pos)
          else if p.char = '-' || p.char = '_' || p.char = ':' then
            skip 1
            attributesWithin t lt tag n (r.addKey tok) .name
          else unexpected tok (.inTag tag)
        | .ident _ =>
          skip 1
          attributesWithin t lt tag n (r.addKey tok) .name
        | .literal l =>
          if l.isString then
            skip 1
            attributesWithin t lt tag n (r.startKey tok) .name
          else unexpected tok (.inTag tag)
        | .group .. => unexpected tok (.inTag tag)

/-- Reads the attributes of a tag up to its end. -/
def attributes (t : Tools) (lt : Option Position) (tag : Text) : ParseM (TagReading × TagEnd) := do
  t.attributesWithin lt tag ((← rest).length + 1) {} .name

end Tools

namespace ParseM

/-- Reads a closing tag, whose first two tokens are `<` and `/`. -/
def closingTag : ParseM ClosingTag := do
  let lt ← peek
  let pos := lt.bind Token.pos
  skip 2
  let tokens := tagNameTokens (← rest)
  skip tokens.length
  match ← peek with
  | none => fail pos (.openClosingTag (tagName tokens))
  | some gt =>
    skip 1
    if gt.isPunct '>' then return ⟨tagName tokens, tokens, pos⟩
    else unexpected gt (.inClosingTag (tagName tokens))

/-- Reads a comment from the tokens after its beginning, and gives its text from there on. -/
def commentFrom (pos : Option Position) : List Token → ParseM Text
  | [] => do
    checkStop
    fail pos .openComment
  | tok :: ts => do
    checkStop
    if startsWithMarks ['-', '-', '>'] (tok :: ts) then
      skip 3
      return tok.space ++ utf8 "-->"
    else
      skip 1
      return Token.sourceWithSpace [tok] ++ (← commentFrom pos ts)

/-- Reads the comment at the next token, which is a text. White space before it counts in markup. -/
def comment (lt : Punct) : ParseM Unit := do
  let space := if (← get).markup then lt.space else []
  skip 4
  let body ← commentFrom lt.pos (← rest)
  emitText (space ++ utf8 "<!--" ++ body) lt.pos

end ParseM
end Atmark
