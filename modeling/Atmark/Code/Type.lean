import Atmark.Code.Name
import Atmark.Token.Basic

/-!
Types in generated code: stars and empty brackets, a name that may be qualified once, and arguments in
brackets. `isType` tells whether tokens are such a type, `typeText` is its canonical spelling.
-/
namespace Atmark.Code

/-- Where the reading of a type is. -/
inductive TypeFocus where
  /-- Before the name. -/
  | start
  /-- After a name that a dot may follow. -/
  | name
  /-- After the dot. -/
  | dot
  /-- After a qualified name. -/
  | qualified
  /-- After the arguments. -/
  | arguments
  deriving DecidableEq, Repr

namespace TypeFocus

/-- A type may end here. -/
def mayEnd : TypeFocus → Bool
  | .start | .dot => false
  | .name | .qualified | .arguments => true

/-- Arguments may follow here. -/
def takesArguments : TypeFocus → Bool
  | .name | .qualified => true
  | .start | .dot | .arguments => false

/-- What is read after an identifier, if one may stand here. -/
def afterName : TypeFocus → Option TypeFocus
  | .start => some .name
  | .dot => some .qualified
  | .name | .qualified | .arguments => none

/-- What is read after a punctuation character, if it may stand here. -/
def afterPunct (inArguments : Bool) (f : TypeFocus) (c : Char) : Option TypeFocus :=
  if c = '*' && f = .start then some .start
  else if c = '.' && f = .name then some .dot
  else if c = ',' && inArguments && f.mayEnd then some .start
  else none

end TypeFocus

mutual

/-- What is read after a token, if it may stand here. -/
def typeStep (inArguments : Bool) (f : TypeFocus) : Token → Option TypeFocus
  | .ident i => if isName i.name then f.afterName else none
  | .literal _ => none
  | .punct p => f.afterPunct inArguments p.char
  | .group g ts =>
    if g.delim ≠ .bracket then none
    else if ts.isEmpty then if f = .start then some .start else none
    else if f.takesArguments && isTypeFrom true .start ts then some .arguments
    else none

/-- The tokens complete a type. -/
def isTypeFrom (inArguments : Bool) (f : TypeFocus) : List Token → Bool
  | [] => f.mayEnd
  | t :: ts =>
    match typeStep inArguments f t with
    | some g => isTypeFrom inArguments g ts
    | none => false

end

/-- The tokens are a type. -/
def isType (ts : List Token) : Bool := isTypeFrom false .start ts

mutual

/-- A token of a type in its canonical spelling. -/
def typeTokenText : Token → Text
  | .group f ts => f.delim.opening ++ typeText ts ++ f.delim.closing
  | t => t.source ++ if t.isPunct ',' then utf8 " " else []

/-- A type in its canonical spelling, with a space after every comma. -/
def typeText : List Token → Text
  | [] => []
  | t :: ts => typeTokenText t ++ typeText ts

end

end Atmark.Code
