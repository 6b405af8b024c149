import Atmark.Parse.Region

/-!
Type names: stars and empty brackets, a path of identifiers, and arguments between `<` and `>`. The
result is the type in code, with dots in the path and the arguments in brackets.
-/
namespace Atmark.ParseM

/-- A star or empty brackets, which may stand before a type. -/
def isTypePrefix : Token → Bool
  | .punct p => p.char = '*'
  | .group f ts => f.delim = .bracket && ts.isEmpty
  | _ => false

/-- The token without white space, as it stands before a type in code. -/
def typePrefix (t : Token) : Token :=
  if t.isPunct '*' then .mark t.pos '*' else .enclose t.pos .bracket []

/-- What follows the first identifier of a type, given how to read the arguments after `<`. -/
def typePath (arguments : Option Position → ParseM (List Token)) : List Token → ParseM (List Token)
  | [] => return []
  | tok :: ts => do
    if !tok.glued then return []
    setLast tok.pos
    if tok.isPunct ':' then
      if colons (tok :: ts) != 2 then fail tok.pos (.wrongColons (colons (tok :: ts)))
      match ts with
      | _ :: .ident n :: ts' =>
        if n.space.isEmpty then
          skip 3
          return .mark tok.pos '.' :: .word n.pos n.name :: (← typePath arguments ts')
        else fail tok.pos .missingPathSegment
      | _ => fail tok.pos .missingPathSegment
    else if tok.isPunct '.' then
      match ts with
      | .ident n :: ts' =>
        if n.space.isEmpty then
          skip 2
          return .mark tok.pos '.' :: .word n.pos n.name :: (← typePath arguments ts')
        else return []
      | _ => return []
    else if tok.isPunct '<' then
      skip 1
      return [.enclose tok.pos .bracket (← arguments tok.pos)]
    else return []

/-- The type at the tokens still to be read, given how to read the arguments after `<`. -/
def typeFrom (arguments : Option Position → ParseM (List Token)) : List Token → ParseM (List Token)
  | [] => do fail (← get).stream.stop .missingType
  | tok :: ts => do
    if isTypePrefix tok then
      skip 1
      if ts.head?.any Token.glued then
        return typePrefix tok :: (← typeFrom arguments ts)
      else fail tok.pos (.missingTypeAfter tok)
    else match tok with
      | .ident id =>
        skip 1
        return .word id.pos id.name :: (← typePath arguments ts)
      | _ => unexpected tok .forType

mutual

/-- The type at the next token, with arguments nested at most `n / 2` deep. -/
def typeWithin : Nat → ParseM (List Token)
  | 0 => throw .exhausted
  | n + 1 => do
    checkStop
    typeFrom (typeArguments n) (← rest)

/-- The arguments after `<` at a position, up to the closing `>`. -/
def typeArguments : Nat → Option Position → ParseM (List Token)
  | 0, _ => throw .exhausted
  | n + 1, pos => do
    let arg ← typeWithin n
    match ← peek with
    | none => fail pos .openTypeArguments
    | some tok =>
      skip 1
      if tok.isPunct '>' then return arg
      else if tok.isPunct ',' then
        return arg ++ .mark tok.pos ',' :: (← typeArguments n pos)
      else unexpected tok .inTypeArguments

end

/-- The type at the next token. Every argument takes a token, so the tokens left bound the nesting. -/
def typeName : ParseM (List Token) := do typeWithin (2 * (← rest).length + 2)

end Atmark.ParseM
