import Atmark.Token.Basic

/-!
What the next token asks for. Markup is copied as text up to `@`, `<` and groups; code is read token by
token, and `<` starts a tag there only where a statement can start.
-/
namespace Atmark

/-- What is done with the next token. -/
inductive Action where
  /-- It is text. -/
  | text
  /-- Its tokens are read. -/
  | group (frame : Frame) (children : List Token)
  /-- It is the marker, and what follows it is read. -/
  | marker
  /-- It may start a tag. -/
  | tag (lt : Punct)
  /-- It starts an identifier expression. -/
  | identifier
  /-- It is a literal of the code. -/
  | literal (l : Literal)
  /-- It is a character of the code. -/
  | code (p : Punct)
  /-- It ends the stream and stays there. -/
  | stop

/-- What the token asks for, in markup or in code, where a statement can start or not. A closing brace
is only found in streams built by a directive; in code it ends them. -/
def Token.action (markup statement : Bool) : Token → Action
  | .ident _ => if markup then .text else .identifier
  | .literal l => if markup then .text else .literal l
  | .group f ts => .group f ts
  | .punct p =>
    if p.char = '@' then .marker
    else if p.char = '<' then if markup || statement then .tag p else .code p
    else if p.char = '\x7d' && !markup then .stop
    else if markup then .text
    else .code p

end Atmark
