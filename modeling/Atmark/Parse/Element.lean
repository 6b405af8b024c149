import Atmark.Parse.Marker
import Atmark.Parse.Tag

/-!
Elements: a tag, its children and its closing tag, each shown to the hook that accepts its name. Two
hooks for one name are a fault, so that the order of the hooks never matters.
-/
namespace Atmark.Registry
open ParseM

/-- The nodes of a tag, after the hook that accepts it. -/
def tagNodes (r : Registry) (c : TagContext) : ParseM (List Node) := do
  match r.tagHooks.filter (·.accepts c.name) with
  | [] => return c.default
  | [h] =>
    match h.run c with
    | .error e => throw (e.withPosition c.pos)
    | .ok none => return c.default
    | .ok (some nodes) =>
      note "tag hook" [("tag", c.name), ("opening", utf8 (if c.isOpening then "true" else "false"))]
      return nodes
  | _ => fail c.pos (.manyTagHooks c.name)

/-- The nodes of an element, after the hook that accepts it. -/
def elementNodes (r : Registry) (c : ElementContext) : ParseM (List Node) := do
  match r.elementHooks.filter (·.accepts c.name) with
  | [] => return c.default
  | [h] =>
    match h.run c with
    | .error e => throw (e.withPosition c.pos)
    | .ok none => return c.default
    | .ok (some nodes) =>
      note "node hook" [("element", c.name), ("tokens", Text.ofNat nodes.length)]
      return nodes
  | _ => fail c.pos (.manyNodeHooks c.name)

/-- The next tokens, after `<`, are the beginning of the closing tag `name`. -/
def closesRawText (name : Text) : List Token → Bool
  | a :: b :: _ => a.isPunct '/' && a.glued && b.glued && Text.sameFold b.brief name
  | _ => false

/-- Reads raw text up to the closing tag `name`, in at most so many steps; only that tag and the marker
are recognised. -/
def rawTextWithin (r : Registry) (t : Tools) (name : Text) : Nat → ParseM (Option ClosingTag)
  | 0 => throw .exhausted
  | n + 1 => do
    checkStop
    match ← rest with
    | [] => return none
    | tok :: ts =>
      setLast tok.pos
      if tok.isPunct '<' && closesRawText name ts then
        emitText tok.space tok.pos
        return some (← closingTag)
      else if tok.isPunct '@' && ts.head?.any Token.glued then
        r.marker t tok
        r.rawTextWithin t name n
      else
        skip 1
        emitText (Token.sourceWithSpace [tok]) tok.pos
        r.rawTextWithin t name n

/-- Reads the children of an element into nodes of their own, and its closing tag. -/
def children (r : Registry) (t : Tools) (name : Text) : ParseM (List Node × Option ClosingTag) := do
  let outer ← get
  set { outer with sink := [], markup := true, atStart := outer.atStatementStart }
  let closing ←
    if r.isRawText name then r.rawTextWithin t name t.turns else t.parse
  let inner ← get
  set { inner with sink := outer.sink, markup := outer.markup, atStart := outer.atStart }
  return (inner.sink.reverse, closing)

/-- Reads the element at the next token. -/
def element (r : Registry) (t : Tools) (lt : Punct) : ParseM Unit := do
  skip 1
  let tokens := tagNameTokens (← rest)
  skip tokens.length
  let name := tagName tokens
  let (reading, stop) ← t.attributes lt.pos name
  let isVoid := r.isVoid name
  let isSelfClosed := stop.slash.isSome
  let start := if isVoid then Node.tagVoid name tokens else .tagStart name tokens
  let close :=
    if isVoid then Node.closeVoid stop.pos stop.space stop.slash
    else if isSelfClosed then .closeSelf stop.pos stop.space
    else .closeStart stop.pos stop.space
  let attributes := reading.attributes.reverse
  let opening ← r.tagNodes
    { name, isOpening := true, isVoid, isSelfClosed, attributes,
      nodes := start :: reading.nodes.reverse, close := some close, pos := lt.pos }
  if isVoid || isSelfClosed then emit opening
  else
    let (children, closing) ← r.children t name
    match closing with
    | none => fail lt.pos (.openElement name)
    | some c =>
      if !Text.sameFold c.name name then fail c.pos (.mismatchedTag c.name name)
      let stop ← r.tagNodes
        { name, isOpening := false, isVoid := false, isSelfClosed := false, attributes := [],
          nodes := [.tagEnd c.pos c.name c.tokens], close := none, pos := c.pos }
      let nodes ← r.elementNodes
        { name, attributes, start := opening, children, stop, pos := lt.pos,
          environment := t.settings.environment }
      emit nodes

/-- Reads what `<` starts: a closing tag, which is given back, a comment, an element, or nothing, and
then it is a character like any other. -/
def tagEntry (r : Registry) (t : Tools) (lt : Punct) (ts : List Token) :
    ParseM (Option ClosingTag) := do
  let markup := (← get).markup
  let next := ts.head?.filter Token.glued
  if next.any (·.isPunct '/') && ts.tail.head?.any fun n => n.glued && n.startsTagName then
    if markup then emitText lt.space lt.pos
    return some (← closingTag)
  else if startsWithMarks ['<', '!', '-', '-'] (.punct lt :: ts) then
    comment lt
    return none
  else if next.any Token.startsTagName then
    if markup then emitText lt.space lt.pos
    r.element t lt
    return none
  else
    skip 1
    if markup then emitText (lt.space ++ utf8 "<") lt.pos else emit [.punct lt]
    return none

end Atmark.Registry
