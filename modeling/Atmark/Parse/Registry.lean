import Atmark.Parse.State

/-!
What a compilation can be extended with: directives, run where their name follows `@`, hooks that
replace parsed tags and elements, and the names of the elements that are void or hold raw text.
-/
namespace Atmark

/-- A closing tag that was read while no element was open in the region. -/
structure ClosingTag where
  name : Text
  tokens : List Token
  pos : Option Position

/-- What a compilation is set to do. -/
structure Settings where
  /-- Name of the environment, matched by environment elements. -/
  environment : Text := []
  /-- Files of the templates and of the included contents, if there are any. -/
  files : Option Files := none
  /-- Renders Markdown, or says why it cannot. -/
  markdown : Text → Except Text Text
  /-- Name of the output buffer in the generated code. -/
  buffer : Text := utf8 "html"
  /-- Name of the generated package. -/
  package : Text := utf8 "views"
  /-- Neighbouring writes of text are joined. -/
  coalesce : Bool := true

/-- What a directive may use while it runs. -/
structure Tools where
  settings : Settings
  /-- A directive of this name is registered. -/
  knows : Text → Bool
  /-- Parses the rest of the stream. -/
  resume : ParseM (Option ClosingTag)
  /-- How many turns a loop over the rest of the stream may take. -/
  turns : Nat
  /-- Parses an included template, given its path and its source. -/
  embed : Text → Text → ParseM Fragment

/-- How parsing goes on after a directive. -/
inductive Outcome where
  /-- With the next token. -/
  | next
  /-- After the group or file in which the directive stands. -/
  | leave
  /-- With the name of the directive as the beginning of an expression to be written. -/
  | expression
  deriving DecidableEq, Repr

/-- A word that does something at compile time when it follows `@`. -/
structure Directive where
  name : Text
  run : Tools → Ident → ParseM Outcome
  /-- It may go back, so that tokens are read again. -/
  rereads : Bool := false

/-- A parsed tag, shown to the hooks. -/
structure TagContext where
  name : Text
  isOpening : Bool
  isVoid : Bool
  isSelfClosed : Bool
  attributes : List Attribute
  /-- The tag without its end, or a whole closing tag. -/
  nodes : List Node
  /-- The end of an opening tag. -/
  close : Option Node
  pos : Option Position

/-- The nodes of a tag that no hook replaces. -/
def TagContext.default (c : TagContext) : List Node := c.nodes ++ c.close.toList

/-- A parsed element, shown to the hooks. -/
structure ElementContext where
  name : Text
  attributes : List Attribute
  start : List Node
  children : List Node
  stop : List Node
  pos : Option Position
  environment : Text

namespace ElementContext

/-- The nodes of an element that no hook replaces. -/
def default (c : ElementContext) : List Node := c.start ++ c.children ++ c.stop

/-- The first attribute of a name, whatever its case. -/
def attribute? (c : ElementContext) (name : Text) : Option Attribute :=
  c.attributes.find? (Text.sameFold ·.name name)

end ElementContext

/-- Replaces the tags whose name it accepts, unless it answers with nothing. -/
structure TagHook where
  accepts : Text → Bool
  run : TagContext → Except Error (Option (List Node))

/-- Replaces the elements whose name it accepts, unless it answers with nothing. -/
structure ElementHook where
  accepts : Text → Bool
  run : ElementContext → Except Error (Option (List Node))

/-- The names of the elements without closing tag. The first is the document type. -/
def defaultVoidTags : List Text :=
  ["!DOCTYPE", "area", "base", "br", "col", "embed", "hr", "img", "input", "link", "meta", "param",
    "source", "track", "wbr"].map utf8

/-- The names of the elements whose content is raw text. -/
def defaultRawTextTags : List Text := ["script", "style"].map utf8

/-- A set of tag names, in lower case and in order. -/
def tagSet (names : List Text) : List Text := Text.sort (names.map Text.lower).eraseDups

/-- The directives, hooks and tag names of a compilation. -/
structure Registry where
  directives : List Directive := []
  tagHooks : List TagHook := []
  elementHooks : List ElementHook := []
  voidTags : List Text := tagSet defaultVoidTags
  rawTextTags : List Text := tagSet defaultRawTextTags

namespace Registry

/-- The directive of a name. -/
def directive? (r : Registry) (name : Text) : Option Directive :=
  r.directives.find? (·.name = name)

/-- Adds a directive; it needs a name that is not taken. -/
def addDirective (r : Registry) (d : Directive) : Except Error Registry :=
  if d.name.isEmpty then .error (.plain (utf8 "rusthtml: directive has no name"))
  else if (r.directive? d.name).isSome then
    .error (.plain (utf8 "rusthtml: directive " ++ d.name ++ utf8 " already exists"))
  else .ok { r with directives := r.directives ++ [d] }

/-- The names of the directives, in order. -/
def directiveNames (r : Registry) : List Text := Text.sort (r.directives.map (·.name))

/-- How many turns are enough for the tokens of a file. A turn takes a token, so as many as there are
tokens, unless a directive goes back. Then what was read before can change how the same tokens are read,
over and over again; a run that comes to an end by itself repeats neither the place nor what is open
there, and the fourth power leaves room for it, while one that does not goes on until it is stopped. -/
def turns (r : Registry) (w : World) (tokens : List Token) : Nat :=
  let n := Token.weights tokens + 1
  if r.directives.any (·.rereads) then n.pow 4 + w.budget.getD 0 else n

/-- Sets the names of the void elements. -/
def setVoidTags (r : Registry) (names : List Text) : Registry := { r with voidTags := tagSet names }

/-- Sets the names of the elements whose content is raw text. -/
def setRawTextTags (r : Registry) (names : List Text) : Registry :=
  { r with rawTextTags := tagSet names }

/-- The name belongs to a void element. -/
def isVoid (r : Registry) (name : Text) : Bool := r.voidTags.contains (Text.lower name)

/-- The name belongs to an element whose content is raw text. -/
def isRawText (r : Registry) (name : Text) : Bool := r.rawTextTags.contains (Text.lower name)

end Registry
end Atmark
