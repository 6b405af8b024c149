import Atmark.Token.Basic

/-!
Joining of writes: neighbouring calls that write a text to the same buffer become one call with the
whole text. Calls are joined only inside one block. A list of tokens is first read as calls and other
tokens, so that joining is a matter of neighbours.
-/
namespace Atmark.Code

/-- A call that writes a text. -/
structure TextCall where
  receiver : Ident
  dot : Punct
  method : Ident
  frame : Frame
  literal : Literal
  stop : Punct
  /-- The text it writes. -/
  text : Text
  /-- It stands for several calls. -/
  isJoined : Bool := false

/-- A call that writes a text, or any other token. -/
inductive Item where
  | call (c : TextCall)
  | token (t : Token)

/-- The call that writes a text to `buf` at the head of the tokens. -/
def textCall? (buf : Text) : List Token → Option TextCall
  | .ident r :: .punct d :: .ident m :: .group f [.literal l] :: .punct s :: _ =>
    if r.name = buf && d.char = '.' && m.name = utf8 "WriteLiteral" && f.delim = .parenthesis &&
        l.isString && s.char = ';' then
      (Text.unquote? l.raw).map fun text => ⟨r, d, m, f, l, s, text, false⟩
    else none
  | _ => none

/-- The tokens as calls and others, after tokens that belong to a call already read. -/
def itemsFrom (buf : Text) : Nat → List Token → List Item
  | _, [] => []
  | n + 1, _ :: ts => itemsFrom buf n ts
  | 0, t :: ts =>
    match textCall? buf (t :: ts) with
    | some c => .call c :: itemsFrom buf 4 ts
    | none => .token t :: itemsFrom buf 0 ts

/-- The tokens as calls and others. -/
def items (buf : Text) (ts : List Token) : List Item := itemsFrom buf 0 ts

/-- One call for two. -/
def TextCall.join (a b : TextCall) : TextCall :=
  { a with text := a.text ++ b.text, stop := b.stop, isJoined := true }

/-- Neighbouring calls joined. -/
def joinCalls : List Item → List Item
  | [] => []
  | .token t :: is => .token t :: joinCalls is
  | .call c :: is =>
    match joinCalls is with
    | .call d :: rest => .call (c.join d) :: rest
    | rest => .call c :: rest

/-- The tokens of a call; one that stands for several has its text in a new literal. -/
def TextCall.tokens (c : TextCall) : List Token :=
  let arg : Token :=
    if c.isJoined then
      .enclose c.frame.pos .parenthesis [.literal (.ofText c.receiver.pos c.text)]
    else .group c.frame [.literal c.literal]
  [.ident c.receiver, .punct c.dot, .ident c.method, arg, .punct c.stop]

/-- The tokens of an item. -/
def Item.tokens : Item → List Token
  | .call c => c.tokens
  | .token t => [t]

/-- The neighbouring calls of one block joined. -/
def joinBlock (buf : Text) (ts : List Token) : List Token :=
  (joinCalls (items buf ts)).flatMap Item.tokens

mutual

/-- A token with the calls in it joined. -/
def coalesceToken (buf : Text) : Token → Token
  | .group f ts => .group f (joinBlock buf (coalesceEach buf ts))
  | t => t

/-- Each token of a list with the calls in it joined. -/
def coalesceEach (buf : Text) : List Token → List Token
  | [] => []
  | t :: ts => coalesceToken buf t :: coalesceEach buf ts

end

/-- The tokens with neighbouring calls joined, at every depth. -/
def coalesce (buf : Text) (ts : List Token) : List Token := joinBlock buf (coalesceEach buf ts)

end Atmark.Code
