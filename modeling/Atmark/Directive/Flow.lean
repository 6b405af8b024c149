import Atmark.Parse.Expression

/-!
Loops and conditions. Their headers are code, and so are their bodies, where markup starts with a tag.
Besides the clauses of the code a loop may name its variables before `in`: one for a range of integers,
one or two for anything else that can be iterated.
-/
namespace Atmark.Directive
open ParseM

/-- A generated word at the position of a token. -/
def keyword (t : Token) (name : Text) (space : String) : Node := .ident ⟨t.pos, utf8 space, name⟩

/-- A generated character at a position. -/
def sign (pos : Option Position) (c : Char) (space : String) : Node := .punct ⟨pos, utf8 space, c⟩

/-- The tokens with a single space before the first. -/
def spaced : List Token → List Token
  | [] => []
  | t :: ts => t.withSpace (utf8 " ") :: ts

/-- Reads the body of a statement. It starts on the line of its header. -/
def block (t : Tools) (f : Frame) (ts : List Token) : ParseM Node := do
  return .group { f with space := utf8 " " } (← t.region f ts false)

/-- The tokens before and after the first that satisfies a test, and that token. -/
def splitAtFirst (p : Token → Bool) : List Token → Option (List Token × Token × List Token)
  | [] => none
  | t :: ts =>
    if p t then some ([], t, ts)
    else (splitAtFirst p ts).map fun (before, u, after) => (t :: before, u, after)

/-- The tokens before and after the first two adjacent dots, and the position of the dots. -/
def splitAtRange : List Token → Option (List Token × Option Position × List Token)
  | t :: u :: ts =>
    if t.isPunct '.' && u.isPunct '.' && u.glued then some ([], t.pos, ts)
    else (splitAtRange (u :: ts)).map fun (before, pos, after) => (t :: before, pos, after)
  | _ => none

/-- The variables of a loop: an identifier, or two in parentheses. -/
def pattern (ts : List Token) (inPos : Option Position) : Except Error (Ident × Option Ident) :=
  match ts with
  | [.ident t] => .ok (t, none)
  | [.group f [.ident a, comma, .ident b]] =>
    if f.delim = .parenthesis && comma.isPunct ',' then .ok (a, some b)
    else .error (.at? f.pos (.unexpected (.group f [.ident a, comma, .ident b]) .inPattern))
  | [t] => .error (.at? t.pos (.unexpected t .inPattern))
  | _ => .error (.at? inPos .invalidPattern)

/-- The clause of a loop over the integers from `first` to `last`. -/
def rangeClause (v : Ident) (pos : Option Position) (first last : List Token) (inclusive : Bool) :
    List Node :=
  let var := keyword (.ident v) v.name " "
  [var, sign pos ':' " ", sign pos '=' ""] ++ Node.ofTokens (spaced first) ++
    [sign pos ';' "", var, sign pos '<' " "] ++ (if inclusive then [sign pos '=' ""] else []) ++
    Node.ofTokens (spaced last) ++ [sign pos ';' "", var, sign pos '+' "", sign pos '+' ""]

/-- The clause of a loop over anything else; a single variable takes the elements. -/
def iterationClause (vars : Ident × Option Ident) (word : Token) (expr : List Token) : List Node :=
  let (first, second) := match vars with
    | (v, none) => (keyword (.ident v) (utf8 "_") " ", keyword (.ident v) v.name " ")
    | (k, some v) => (keyword (.ident k) k.name " ", keyword (.ident v) v.name " ")
  [first, sign word.pos ',' "", second, sign word.pos ':' " ", sign word.pos '=' "",
    keyword word (utf8 "range") " "] ++ Node.ofTokens (spaced expr)

/-- The clause for a header with variables `vars`, the word `in` and an expression. -/
def patternClause (vars : Ident × Option Ident) (word : Token) (expr : List Token) :
    Except Error (List Node) :=
  if expr.isEmpty then .error (.at? word.pos .missingIterated)
  else match splitAtRange expr with
    | none => .ok (iterationClause vars word expr)
    | some (first, pos, after) =>
      let inclusive := after.head?.any fun t => t.isPunct '=' && t.glued
      let last := if inclusive then after.tail else after
      if first.isEmpty || last.isEmpty then .error (.at? pos .invalidRange)
      else match vars with
        | (v, none) => .ok (rangeClause v pos first last inclusive)
        | (_, some _) => .error (.at? pos .rangeVariables)

/-- The clause of a loop for its header. Without the word `in` the header is copied. -/
def forClause (header : List Token) : Except Error (List Node) :=
  match splitAtFirst (·.isNamed "in") header with
  | none => .ok (Node.ofTokens header)
  | some (before, word, expr) => do
    let vars ← pattern before word.pos
    patternClause vars word expr

/-- A loop. -/
def forLoop (t : Tools) (id : Ident) : ParseM Outcome := do
  let (header, f, ts) ← untilBrace id.pos "for" (← rest)
  match forClause header with
  | .error e => throw e
  | .ok clause =>
    let body ← block t f ts
    emit [keyword (.ident id) (utf8 "for") ""]
    emit clause
    emit [body]
    return .next

/-- A loop with a condition. -/
def whileLoop (t : Tools) (id : Ident) : ParseM Outcome := do
  let (header, f, ts) ← untilBrace id.pos "while" (← rest)
  if header.isEmpty then fail id.pos (.missingCondition (utf8 "while"))
  let body ← block t f ts
  emit [keyword (.ident id) (utf8 "for") ""]
  emit (Node.ofTokens (spaced header))
  emit [body]
  return .next

/-- Reads the condition and the body of a branch. -/
def branch (t : Tools) (id : Ident) : ParseM Unit := do
  let (header, f, ts) ← untilBrace id.pos "if" (← rest)
  if header.isEmpty then fail id.pos (.missingCondition (utf8 "if"))
  let body ← block t f ts
  emit (Node.ofTokens (spaced header))
  emit [body]

/-- The word `else` at the head of the tokens, with the marker before it or not, the token after it,
and how many tokens that makes. -/
def elseAhead (ts : List Token) : Option (Token × Token × Nat) :=
  match ts with
  | m :: w :: next :: _ =>
    if m.isPunct '@' then if w.isNamed "else" && w.glued then some (w, next, 3) else none
    else if m.isNamed "else" then some (m, w, 2)
    else none
  | [w, next] => if w.isNamed "else" then some (w, next, 2) else none
  | _ => none

/-- Reads the branches after the first. Each takes a token, so as many steps as tokens are enough. -/
def elseBranches (t : Tools) : Nat → ParseM Unit
  | 0 => throw .exhausted
  | n + 1 => do
    match elseAhead (← rest) with
    | none => pure ()
    | some (word, next, count) =>
      match next with
      | .ident i =>
        if next.isNamed "if" then
          skip count
          emit [keyword word (utf8 "else") " ", keyword next (utf8 "if") " "]
          branch t i
          elseBranches t n
      | .group f ts =>
        if f.delim = .brace then
          skip count
          let body ← block t f ts
          emit [keyword word (utf8 "else") " ", body]
      | _ => pure ()

/-- A condition, with the branches that follow it. -/
def condition (t : Tools) (id : Ident) : ParseM Outcome := do
  emit [keyword (.ident id) (utf8 "if") ""]
  branch t id
  elseBranches t ((← rest).length + 1)
  return .next

/-- A branch that follows no condition. -/
def loneElse (id : Ident) : ParseM Outcome := fail id.pos .elseWithoutIf

end Atmark.Directive
