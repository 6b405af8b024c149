import Atmark.Parse.Expression

/-!
What follows the marker `@`: another `@` for the character itself, a directive, an expression whose
value is written, or a block of code. Inside a word, as in an address, the marker is text.
-/
namespace Atmark.Registry
open ParseM

/-- Runs the directive named by an identifier, and goes on as it says. -/
def runDirective (t : Tools) (d : Directive) (marker : Option Position) (id : Ident) : ParseM Unit := do
  skip 1
  note "directive" [("name", id.name), ("pos", (id.pos.getD .zero).label)]
  match ← d.run t id with
  | .next => pure ()
  | .leave => modify fun s => { s with broken := true }
  | .expression => emit [.write marker (← t.expressionFrom id)]

/-- Reads what follows the marker at a position, where `next` is the next token. -/
def afterMarker (r : Registry) (t : Tools) (marker : Option Position) (next : Token) : ParseM Unit := do
  match next with
  | .punct p =>
    if p.char = '@' then
      skip 1
      emitText (utf8 "@") p.pos
    else if p.char = '&' then emit [.write marker (← t.expression)]
    else unexpected next .afterMarker
  | .ident id =>
    match r.directive? id.name with
    | some d => runDirective t d marker id
    | none => emit [.write marker (← t.expression)]
  | .literal l =>
    skip 1
    emit [.write marker [.literal l]]
  | .group f ts =>
    if f.delim = .parenthesis then
      skip 1
      let expr ← t.region f ts false
      if expr.isEmpty then fail f.pos .emptyExpression
      emit [.write marker expr]
    else if f.delim = .brace then
      skip 1
      let nodes ← t.region f ts false
      emit nodes
      -- The block ends here, so that markup can follow.
      if !nodes.isEmpty then emit [.punct ⟨f.pos, [], ';'⟩]
    else unexpected next .afterMarker

/-- Reads what follows the marker at a position; it has to stand right after the marker. -/
def gluedToMarker (r : Registry) (t : Tools) (marker : Option Position) : ParseM Unit := do
  match ← peek with
  | none => fail marker .missingExpression
  | some next =>
    if !next.glued then fail marker .missingExpression
    setLast next.pos
    r.afterMarker t marker next

/-- Reads the marker at the next token, and what follows it. -/
def marker (r : Registry) (t : Tools) (m : Token) : ParseM Unit := do
  skip 1
  let s ← get
  if s.markup && m.glued && s.sink.head?.any Node.endsWithWord then emitText (utf8 "@") m.pos
  else
    if s.markup then emitText m.space m.pos
    r.gluedToMarker t m.pos

end Atmark.Registry
