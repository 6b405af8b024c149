import Atmark.ImportPath
import Atmark.Token.Basic

/-!
Errors are causes; all wording is in the `message` functions. A fault found in a source has a
position there, and the path of the source is filled in by whoever reads that source
(`Error.withPath`), so the innermost file wins.
-/
namespace Atmark

/-- Where an unexpected token was found, or what was expected in its place. -/
inductive Context where
  | afterMarker
  | inClosingTag (name : Text)
  | inTag (name : Text)
  | afterMarkerInValue (attr : Text)
  | inValue (attr : Text)
  | afterDirective (directive expecting : Text)
  | inUse
  | inPattern
  | forIdentifier
  | forType
  | inTypeArguments

namespace Context

/-- The part of a message that follows the unexpected token. -/
def message : Context → Text
  | .afterMarker => utf8 "after '@'"
  | .inClosingTag name => utf8 "in closing tag </" ++ name ++ utf8 ">, expecting >"
  | .inTag name => utf8 "in tag <" ++ name ++ utf8 ">"
  | .afterMarkerInValue a => utf8 "after '@' in value of attribute " ++ a
  | .inValue a => utf8 "in value of attribute " ++ a
  | .afterDirective d e => utf8 "after " ++ d ++ utf8 ", expecting " ++ e
  | .inUse => utf8 "in use, expecting import path"
  | .inPattern => utf8 "in for pattern, expecting identifier or (identifier, identifier)"
  | .forIdentifier => utf8 "expecting identifier"
  | .forType => utf8 "expecting type"
  | .inTypeArguments => utf8 "in generic arguments, expecting , or >"

end Context

/-- What is wrong with a source at a position of it. -/
inductive Fault where
  | unclosedGroup (d : Delimiter)
  | strayDelimiter (c : UInt8)
  | openString
  | openRawString
  | invalidEncoding
  | innerByteOrderMark
  | unexpected (found : Token) (context : Context)
  | strayClosingTag (name : Text)
  | missingExpression
  | emptyExpression
  | missingBrace (what : Text)
  | openComment
  | openClosingTag (name : Text)
  | openElement (name : Text)
  | mismatchedTag (found expected : Text)
  | openTag (name : Text)
  | loneSlash (tag : Text)
  | earlyEquals (tag : Text)
  | openValue
  | missingValueExpression (attr : Text)
  | emptyValueExpression (attr : Text)
  | missingValue (attr tag : Text)
  | includedDeclaration (directive : Text)
  | missingArgument (directive expecting : Text)
  | invalidString (raw : Text)
  | modelDeclared (earlier : Option Position)
  | alreadyDeclared (what : Text) (earlier : Option Position)
  | invalidViewName (name : Text)
  | invalidImportLiteral (raw : Text)
  | invalidImportPath (path : Text) (cause : ImportPath.Trouble)
  | notDeclaration
  | missingIterated
  | invalidRange
  | rangeVariables
  | invalidPattern
  | missingCondition (what : Text)
  | elseWithoutIf
  | missingSectionCall
  | missingSectionName
  | bodyArguments
  | missingIdentifier
  | postfixOperator (c : Char)
  | missingType
  | missingTypeAfter (tok : Token)
  | wrongColons (n : Nat)
  | missingPathSegment
  | openTypeArguments
  | invalidPathLiteral (raw : Text)
  | cycle (chain : List Text)
  | invalidPath (name : Text)
  | outsideRoot (name : Text)
  | markdown (reason : Text)
  | manyTagHooks (name : Text)
  | manyNodeHooks (name : Text)
  | bareEnvironment
  | environmentWithoutValue (attr : Text)
  | environmentExpression (attr : Text)
  | custom (text : Text)

namespace Fault

/-- The label of an earlier declaration. -/
def placeOf : Option Position → Text
  | some p => p.label
  | none => utf8 "<nil>"

/-- The wording of a fault, without path and position. -/
def message : Fault → Text
  | .unclosedGroup d => utf8 "unclosed " ++ d.opening ++ utf8 ", expecting " ++ d.closing
  | .strayDelimiter c => utf8 "unexpected " ++ [c]
  | .openString => utf8 "string literal not terminated"
  | .openRawString => utf8 "raw string literal not terminated"
  | .invalidEncoding => utf8 "invalid UTF-8 encoding"
  | .innerByteOrderMark => utf8 "invalid BOM in the middle of the file"
  | .unexpected t c => utf8 "unexpected " ++ t.describe ++ utf8 " " ++ c.message
  | .strayClosingTag n => utf8 "unexpected closing tag </" ++ n ++ utf8 ">, no open element"
  | .missingExpression => utf8 "expected expression after '@'"
  | .emptyExpression => utf8 "empty expression after '@'"
  | .missingBrace w => utf8 "expected \x7b after " ++ w
  | .openComment => utf8 "comment not terminated, expecting -->"
  | .openClosingTag n => utf8 "unexpected end in closing tag </" ++ n ++ utf8 ">, expecting >"
  | .openElement n => utf8 "element <" ++ n ++ utf8 "> not closed, expecting </" ++ n ++ utf8 ">"
  | .mismatchedTag f e => utf8 "mismatched closing tag </" ++ f ++ utf8 ">, expecting </" ++ e ++ utf8 ">"
  | .openTag n => utf8 "tag <" ++ n ++ utf8 "> not closed, expecting >"
  | .loneSlash n => utf8 "expected > after / in tag <" ++ n ++ utf8 ">"
  | .earlyEquals n => utf8 "unexpected = before attribute name in tag <" ++ n ++ utf8 ">"
  | .openValue => utf8 "attribute value not terminated, expecting '"
  | .missingValueExpression a => utf8 "expected expression after '@' in value of attribute " ++ a
  | .emptyValueExpression a => utf8 "empty expression in value of attribute " ++ a
  | .missingValue a n => utf8 "missing value of attribute " ++ a ++ utf8 " in tag <" ++ n ++ utf8 ">"
  | .includedDeclaration d => d ++ utf8 " cannot be declared in an included template"
  | .missingArgument d e => utf8 "unexpected end after " ++ d ++ utf8 ", expecting " ++ e
  | .invalidString raw => utf8 "invalid string " ++ raw
  | .modelDeclared p =>
    utf8 "model already declared at " ++ placeOf p ++ utf8 ", use @(model) to write its value"
  | .alreadyDeclared w p => w ++ utf8 " already declared at " ++ placeOf p
  | .invalidViewName n => utf8 "invalid view name " ++ Text.quote n
  | .invalidImportLiteral raw => utf8 "invalid import path " ++ raw
  | .invalidImportPath p c =>
    utf8 "invalid import path " ++ Text.quote p ++ utf8 ": malformed import path " ++ Text.quote p ++
      utf8 ": " ++ c.message
  | .notDeclaration =>
    utf8 "inject requires a variable declaration, as in \"name := expression\""
  | .missingIterated => utf8 "expected expression after in"
  | .invalidRange => utf8 "invalid range, expecting start..end"
  | .rangeVariables => utf8 "range of integers requires a single variable"
  | .invalidPattern =>
    utf8 "invalid for pattern, expecting identifier or (identifier, identifier)"
  | .missingCondition w => utf8 "missing condition in " ++ w
  | .elseWithoutIf => utf8 "else without if"
  | .missingSectionCall => utf8 "expected ( after rendersection"
  | .missingSectionName => utf8 "missing section name in rendersection"
  | .bodyArguments => utf8 "renderbody has no arguments"
  | .missingIdentifier => utf8 "unexpected end, expecting identifier"
  | .postfixOperator c =>
    utf8 "postfix operator '" ++ String.utf8EncodeChar c ++
      utf8 "' not supported, use @(...) with a Go expression"
  | .missingType => utf8 "unexpected end, expecting type"
  | .missingTypeAfter t => utf8 "expected type after " ++ t.brief
  | .wrongColons n => utf8 "unexpected " ++ Text.ofNat n ++ utf8 " colons in type path, expecting ::"
  | .missingPathSegment => utf8 "expected identifier after ::"
  | .openTypeArguments => utf8 "unclosed generic arguments, expecting >"
  | .invalidPathLiteral raw => utf8 "invalid path " ++ raw
  | .cycle chain => utf8 "cycle not allowed\n" ++ Text.intercalate (utf8 "\n\tincludes ") chain
  | .invalidPath n => utf8 "invalid path " ++ Text.quote n
  | .outsideRoot n => utf8 "invalid path " ++ Text.quote n ++ utf8 ": outside the root"
  | .markdown r => utf8 "cannot render markdown: " ++ r
  | .manyTagHooks n => utf8 "tag <" ++ n ++ utf8 "> matched by more than one tag hook"
  | .manyNodeHooks n => utf8 "element <" ++ n ++ utf8 "> matched by more than one node hook"
  | .bareEnvironment => utf8 "environment element requires an include or exclude attribute"
  | .environmentWithoutValue a => utf8 "environment attribute " ++ a ++ utf8 " requires a value"
  | .environmentExpression a =>
    utf8 "environment attribute " ++ a ++ utf8 " cannot be an expression"
  | .custom t => t

end Fault

/-- Why a file operation is refused. -/
inductive FileTrouble where
  | absent
  | noEntry
  | isDirectory
  | notDirectory
  | invalid
  | unsupported
  deriving DecidableEq, Repr

/-- The wording of a refusal. -/
def FileTrouble.message : FileTrouble → Text
  | .absent => utf8 "file does not exist"
  | .noEntry => utf8 "no such file or directory"
  | .isDirectory => utf8 "is a directory"
  | .notDirectory => utf8 "not a directory"
  | .invalid => utf8 "invalid argument"
  | .unsupported => utf8 "not implemented"

/-- The refusal means that nothing is there. -/
def FileTrouble.isAbsence : FileTrouble → Bool
  | .absent | .noEntry => true
  | _ => false

/-- A refused file operation. -/
structure FileError where
  operation : String
  path : Text
  trouble : FileTrouble
  deriving DecidableEq, Repr

/-- The wording of a refused operation. -/
def FileError.message (e : FileError) : Text :=
  utf8 e.operation ++ utf8 " " ++ e.path ++ utf8 ": " ++ e.trouble.message

/-- Why an included content could not be read: there are no files at all, or each path tried was
refused. -/
inductive ReadFailure where
  | noFiles
  | refused (tried : List FileError)

namespace ReadFailure

/-- The wording of a failed read, one line for each path tried. -/
def message : ReadFailure → Text
  | .noFiles => utf8 "no file system"
  | .refused es => Text.intercalate (utf8 "\n") (es.map FileError.message)

/-- One of the paths tried does not exist. -/
def isAbsence : ReadFailure → Bool
  | .noFiles => false
  | .refused es => es.any (·.trouble.isAbsence)

end ReadFailure

/-- Why a compilation was given up. -/
inductive StopCause where
  | cancelled
  | deadline
  deriving DecidableEq, Repr

/-- The wording of the cause. -/
def StopCause.message : StopCause → Text
  | .cancelled => utf8 "context canceled"
  | .deadline => utf8 "context deadline exceeded"

/-- What can end a compilation. -/
inductive Error where
  | fault (path : Text) (pos : Position) (cause : Fault)
  | stopped (path : Text) (pos : Position) (cause : StopCause)
  | content (path : Text) (pos : Position) (file fallback : Text) (cause : ReadFailure)
  | invalidPath
  | notExist
  | noFiles
  | file (cause : FileError)
  | unformatted (path reason : Text)
  | joined (causes : List Error)
  | plain (text : Text)
  | exhausted

namespace Error

/-- A fault at the position of a token, in a source whose path is filled in later. -/
def at? (pos : Option Position) (cause : Fault) : Error := .fault [] (pos.getD .zero) cause

/-- The text of an error without the path and the position of a source. -/
def text : Error → Text
  | .fault _ _ c => c.message
  | .stopped _ _ c => utf8 "rusthtml: compilation cancelled: " ++ c.message
  | .content _ _ f b c =>
    utf8 "cannot read " ++ Text.quote f ++ utf8 " (also tried " ++ Text.quote b ++ utf8 "): " ++
      c.message
  | .invalidPath => utf8 "rusthtml: invalid path"
  | .notExist => utf8 "rusthtml: path does not exist"
  | .noFiles => utf8 "rusthtml: no file system"
  | .file c => c.message
  | .unformatted path reason =>
    utf8 "rusthtml: " ++ path ++ utf8 ": cannot format generated code: " ++ reason
  | .joined _ => []
  | .plain t => t
  | .exhausted => utf8 "rusthtml: nesting bound exceeded"

mutual

/-- The whole text of an error. -/
def message : Error → Text
  | .fault path pos c => path ++ utf8 ":" ++ pos.label ++ utf8 ": syntax error: " ++ c.message
  | .stopped path pos c =>
    path ++ utf8 ":" ++ pos.label ++ utf8 ": " ++ text (.stopped path pos c)
  | .content path pos f b c =>
    path ++ utf8 ":" ++ pos.label ++ utf8 ": " ++ text (.content path pos f b c)
  | .joined es => messages es
  | .invalidPath => text .invalidPath
  | .notExist => text .notExist
  | .noFiles => text .noFiles
  | .file c => text (.file c)
  | .unformatted p r => text (.unformatted p r)
  | .plain t => t
  | .exhausted => text .exhausted

/-- The texts of several errors, one after another on lines of their own. -/
def messages : List Error → Text
  | [] => []
  | [e] => message e
  | e :: f :: es => message e ++ utf8 "\n" ++ messages (f :: es)

end

/-- Fills in the path of the source in which the error was found, unless an inner file did. -/
def withPath (path : Text) : Error → Error
  | .fault p pos c => .fault (if p.isEmpty then path else p) pos c
  | .stopped p pos c => .stopped (if p.isEmpty then path else p) pos c
  | .content p pos f b c => .content (if p.isEmpty then path else p) pos f b c
  | e => e

/-- An error that knows no position becomes a fault at `pos`. -/
def withPosition (pos : Option Position) (e : Error) : Error :=
  match e with
  | .fault .. | .stopped .. | .content .. => e
  | _ => at? pos (.custom e.message)

/-- The path of the source in which the error was found; errors without a position have none. -/
def path : Error → Text
  | .fault p _ _ | .stopped p _ _ | .content p _ _ _ _ => p
  | _ => []

/-- The compilation was given up. -/
def isStop : Error → Bool
  | .stopped .. => true
  | _ => false

end Error
end Atmark
