import Atmark.Parse.Region

/-!
Identifier expressions: an identifier with the selectors, calls and indexes that follow it without
white space. The path separator `::` reads as a dot. They end at the first token that cannot continue
them.
-/
namespace Atmark.Tools
open ParseM

/-- The token turns a `?` or `!` before it into a postfix operator, which code does not have. -/
def followsPostfix (t : Token) : Bool :=
  t.glued && (t.isPunct '.' || t.isGroup .parenthesis || t.isGroup .bracket)

/-- The nodes that continue an expression at the tokens still to be read. -/
def selectors (t : Tools) : List Token → ParseM (List Node)
  | [] => do
    checkStop
    return []
  | tok :: ts => do
    checkStop
    if !tok.glued then return []
    setLast tok.pos
    match tok with
    | .punct p =>
      if p.char = '.' then
        match ts with
        | .ident n :: ts' =>
          if n.space.isEmpty then
            skip 2
            return .punct p :: .ident n :: (← selectors t ts')
          else return []
        | _ => return []
      else if p.char = ':' then
        if colons (tok :: ts) != 2 then return []
        match ts with
        | _ :: .ident n :: ts' =>
          if n.space.isEmpty then
            skip 3
            return .punct ⟨p.pos, [], '.'⟩ :: .ident n :: (← selectors t ts')
          else return []
        | _ => return []
      else if p.char = '?' || p.char = '!' then
        if ts.head?.any followsPostfix then fail p.pos (.postfixOperator p.char)
        else return []
      else return []
    | .group f cs =>
      if f.delim = .brace then return []
      skip 1
      let children ← t.region f cs false
      return .group f children :: (← selectors t ts)
    | _ => return []

/-- The expression whose first identifier has been read. -/
def expressionFrom (t : Tools) (id : Ident) : ParseM (List Node) := do
  return .ident id :: (← t.selectors (← rest))

/-- The expression at the next token: an identifier expression, with an ampersand before it or not. An
ampersand before anything else stands alone. -/
def expression (t : Tools) : ParseM (List Node) := do
  match ← rest with
  | [] => fail (← get).stream.stop .missingIdentifier
  | .ident id :: _ =>
    skip 1
    t.expressionFrom id
  | tok :: ts =>
    match tok with
    | .punct p =>
      if p.char = '&' then
        match ts with
        | .ident id :: _ =>
          if id.space.isEmpty then
            skip 2
            return .punct p :: (← t.expressionFrom id)
          else
            skip 1
            return [.punct p]
        | _ =>
          skip 1
          return [.punct p]
      else unexpected tok .forIdentifier
    | _ => unexpected tok .forIdentifier

end Atmark.Tools
