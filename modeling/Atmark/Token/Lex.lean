import Atmark.Token.Scan

/-!
Token trees from the flat scan: a stack of open groups receives the lexemes from left to right. The
first closing delimiter that does not fit the innermost open group ends it, and so does the end of the
source while a group is open.
-/
namespace Atmark.Token

/-- A group whose closing delimiter is still to come, with the tokens before it, latest first. -/
structure OpenGroup where
  pos : Position
  space : Text
  delim : Delimiter
  before : List Token

/-- The tree of a list of lexemes, inside some open groups and after some tokens, latest first. -/
def nest : List OpenGroup → List Token → List Lexeme → Ending → Except Error (List Token × Text)
  | _, _, [], .broken pos cause => .error (.fault [] pos cause)
  | [], done, [], .blank space => .ok (done.reverse, space)
  | g :: _, _, [], .blank _ => .error (.fault [] g.pos (.unclosedGroup g.delim))
  | gs, done, .leaf t :: ls, e => nest gs (t :: done) ls e
  | gs, done, .opening pos space d :: ls, e => nest (⟨pos, space, d, done⟩ :: gs) [] ls e
  | [], _, .closing pos _ c :: _, _ => .error (.fault [] pos (.strayDelimiter c))
  | g :: gs, done, .closing pos space c :: ls, e =>
    if g.delim.closing = [c] then
      let frame : Frame := ⟨some (g.pos.withStop pos.stop), g.space, g.delim, space⟩
      nest gs (.group frame done.reverse :: g.before) ls e
    else .error (.fault [] pos (.strayDelimiter c))

/-- The tokens of a source and the white space after the last one. -/
def lex (src : Text) : Except Error (List Token × Text) :=
  let (ls, e) := Lexeme.scan src
  nest [] [] ls e

end Atmark.Token
