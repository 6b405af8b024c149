import Atmark.Parse.Registry

/-!
Regions: the tokens of a group read into nodes of their own. Sink, mode and stream of the surrounding
region come back afterwards, whatever happens inside.
-/
namespace Atmark.Tools
open ParseM

/-- Parses the current stream up to its end, a closing tag, or a directive that ends it. -/
def parse (t : Tools) : ParseM (Option ClosingTag) := do
  checkStop
  t.resume

/-- The nodes of a group, read as markup or as code. A closing tag in it needs its opening tag there. -/
def region (t : Tools) (f : Frame) (ts : List Token) (markup : Bool) : ParseM (List Node) := do
  let outer ← get
  set { outer with
    stream := .ofGroup f ts, sink := [], markup, atStart := f.delim.holdsStatements }
  let closing ← t.parse
  let inner ← get
  set { inner with
    stream := outer.stream, sink := outer.sink, markup := outer.markup, atStart := outer.atStart }
  match closing with
  | some c => fail c.pos (.strayClosingTag c.name)
  | none => return inner.sink.reverse

/-- Reads a group where it stands: in markup its delimiters are text around its tokens, in code it is a
group again. -/
def group (t : Tools) (f : Frame) (ts : List Token) : ParseM Unit := do
  if (← get).markup then
    emitText (f.space ++ f.delim.opening) f.pos
    let outer ← get
    set { outer with stream := .ofGroup f ts }
    let closing ← t.parse
    modify fun s => { s with stream := outer.stream, markup := outer.markup }
    match closing with
    | some c => fail c.pos (.strayClosingTag c.name)
    | none => emitText (f.closeSpace ++ f.delim.closing) f.pos
  else
    let children ← t.region f ts false
    emit [.group f children]

/-- Reads a punctuation character of code. After `|`, the characters `->`, a type and braces are the
body of a function that returns the markup written in it. -/
def code (t : Tools) (p : Punct) : ParseM Unit := do
  skip 1
  match ← rest with
  | d :: a :: .ident type :: .group f ts :: _ =>
    if p.char = '|' && d.glued && startsWithMarks ['-', '>'] [d, a] && f.delim = .brace then
      skip 4
      let children ← t.region f ts false
      emit [.closure type f children]
    else emit [.punct p]
  | _ => emit [.punct p]

end Tools

namespace ParseM

/-- The tokens up to the next braces, and the braces. The construct is named if there are none. -/
def untilBrace (pos : Option Position) (what : String) :
    List Token → ParseM (List Token × Frame × List Token)
  | [] => do
    checkStop
    fail pos (.missingBrace (utf8 what))
  | tok :: ts => do
    checkStop
    skip 1
    setLast tok.pos
    match tok with
    | .group f cs =>
      if f.delim = .brace then return ([], f, cs)
      else
        let (before, body) ← untilBrace pos what ts
        return (tok :: before, body)
    | _ =>
      let (before, body) ← untilBrace pos what ts
      return (tok :: before, body)

end ParseM
end Atmark
