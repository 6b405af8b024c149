import Atmark.Parse.TypeName
import Atmark.View.Name

/-!
Directives that declare something about the view: its model, name and parameters, imports, statements
and sections of code. They leave nothing in the output, not even their line. Only imports and
statements may be declared in an included template.
-/
namespace Atmark.Directive
open ParseM

/-- Fails in an included template. -/
def declarable (id : Ident) : ParseM Unit := do
  if !(← get).includers.isEmpty then fail id.pos (.includedDeclaration id.name)

/-- The next token, which white space must part from the directive. -/
def argument (id : Ident) (expecting : String) : ParseM Token := do
  match ← peek with
  | none => fail id.pos (.missingArgument id.name (utf8 expecting))
  | some tok =>
    if tok.glued then unexpected tok (.afterDirective id.name (utf8 expecting))
    setLast tok.pos
    return tok

/-- The value of the string after the directive. -/
def stringArgument (id : Ident) : ParseM Text := do
  match ← argument id "string" with
  | .literal l =>
    if !l.isString then unexpected (.literal l) (.afterDirective id.name (utf8 "string"))
    skip 1
    match l.value? with
    | some v => return v
    | none => fail l.pos (.invalidString l.raw)
  | tok => unexpected tok (.afterDirective id.name (utf8 "string"))

/-- Declares the type of the model, which must follow on the same line. Otherwise the word means the
model itself, whose value is written. -/
def model (id : Ident) : ParseM Outcome := do
  let follows := (← peek).any fun t => !t.glued && !Text.breaksLine t.space
  if !follows then return .expression
  declarable id
  let declared := (← get).declared
  if declared.model.isSome then fail id.pos (.modelDeclared declared.modelPos)
  let _ ← argument id "type"
  let type ← typeName
  declare fun d => { d with model := some type, modelPos := id.pos }
  trimLine
  return .next

/-- Declares the name of the view. -/
def viewName (id : Ident) : ParseM Outcome := do
  declarable id
  let declared := (← get).declared
  if declared.namePos.isSome then fail id.pos (.alreadyDeclared id.name declared.namePos)
  let value ← stringArgument id
  if (View.typeName? value).isNone then fail id.pos (.invalidViewName value)
  declare fun d => { d with name := value, namePos := id.pos }
  trimLine
  return .next

/-- Declares the parameter that the directive is named for. -/
def parameter (id : Ident) : ParseM Outcome := do
  declarable id
  match (← get).declared.parameters.find? (·.1 = id.name) with
  | some (_, _, earlier) => fail id.pos (.alreadyDeclared id.name earlier)
  | none =>
    let value ← stringArgument id
    declare fun d => { d with parameters := d.parameters ++ [(id.name, value, id.pos)] }
    trimLine
    return .next

/-- The name under which a package is imported, which may stand before its path. -/
def importName : ParseM Text := do
  match ← peek with
  | some (.ident t) =>
    skip 1
    return t.name
  | some (.punct p) =>
    if p.char = '.' then
      skip 1
      return utf8 "."
    else return []
  | _ => return []

/-- Adds an import. A semicolon may end it. -/
def use (id : Ident) : ParseM Outcome := do
  let _ ← argument id "import path"
  let name ← importName
  match ← peek with
  | none => fail id.pos (.missingArgument (utf8 "use") (utf8 "import path"))
  | some tok =>
    skip 1
    match tok with
    | .literal l =>
      if !l.isString then unexpected tok .inUse
      match l.value? with
      | none => fail l.pos (.invalidImportLiteral l.raw)
      | some path =>
        if let some trouble := ImportPath.trouble path then fail l.pos (.invalidImportPath path trouble)
        if (← peek).any fun t => t.isPunct ';' && !Text.breaksLine t.space then skip 1
        declare (·.addImport ⟨name, path⟩)
        trimLine
        return .next
    | _ => unexpected tok .inUse

/-- The tokens of a statement, and how many are read for it. It ends before a line break or with a
semicolon. -/
def statement (isFirst : Bool) : List Token → List Token × Nat
  | [] => ([], 0)
  | t :: ts =>
    if !isFirst && Text.breaksLine t.space then ([], 0)
    else if t.isPunct ';' then ([], 1)
    else
      let (stmt, n) := statement false ts
      (t :: stmt, n + 1)

/-- Something follows the first `:=` of the tokens. -/
def assigns : List Token → Bool
  | t :: u :: ts => if t.isPunct ':' && u.isPunct '=' && u.glued then !ts.isEmpty else assigns (u :: ts)
  | _ => false

/-- The statement declares variables, with `:=` or with `var`. -/
def isDeclaration : List Token → Bool
  | [] => false
  | t :: ts => if t.isNamed "var" then !ts.isEmpty else assigns ts

/-- Adds a statement that is run before the view is written. -/
def inject (id : Ident) : ParseM Outcome := do
  let _ ← argument id "statement"
  let (stmt, n) := statement true (← rest)
  skip n
  if !isDeclaration stmt then fail id.pos .notDeclaration
  declare (·.addInject stmt)
  trimLine
  return .next

/-- The declarations so far and those of one more block, with a semicolon between them. -/
def joinBlocks (before : List Token) (f : Frame) (ts : List Token) : List Token :=
  if before.isEmpty || ts.isEmpty then before ++ ts
  else before ++ .punct ⟨f.pos, utf8 "\n", ';'⟩ :: ts

/-- Adds a block of code to the section that the directive is named for. -/
def codeSection (id : Ident) : ParseM Outcome := do
  declarable id
  let tok ← argument id "\x7b"
  match (← get).stream.peekGroup .brace with
  | none => unexpected tok (.afterDirective id.name (utf8 "\x7b"))
  | some (f, ts) =>
    skip 1
    declare fun d => d.putSection id.name (joinBlocks ((d.sectionOf? id.name).getD []) f ts)
    trimLine
    return .next

end Atmark.Directive
