import Atmark.Content
import Atmark.Directive.Declaration

/-!
Directives that include the content of other files: as it is, as Markdown, or as a template. The cached
ones read the file while parsing and keep the result; the others leave a node that is read later.
-/
namespace Atmark.Directive
open ParseM

/-- The tokens of a path without quotes. -/
def pathTokens (isFirst : Bool) : List Token → List Token
  | [] => []
  | t :: ts =>
    if !isFirst && !t.glued then []
    else match t with
      | .group .. => []
      | _ => if t.isPunct '<' || t.isPunct '@' then [] else t :: pathTokens false ts

/-- The path after the directive: a string, or adjacent tokens. -/
def pathArgument (id : Ident) : ParseM (Text × Option Position) := do
  let tok ← argument id "path"
  let bare : ParseM (Text × Option Position) := do
    let ts := pathTokens true (← rest)
    if ts.isEmpty then unexpected tok (.afterDirective id.name (utf8 "path"))
    skip ts.length
    return (Token.sourceOf ts, tok.pos)
  match tok with
  | .literal l =>
    if l.isString then
      skip 1
      match l.value? with
      | some name => return (name, l.pos)
      | none => fail l.pos (.invalidPathLiteral l.raw)
    else bare
  | _ => bare

/-- Reads the content that a name means in this file. -/
def readContent (t : Tools) (name : Text) (pos : Option Position) : ParseM (Text × Text) := do
  let (result, tried) := Content.read t.settings.files (← get).path name pos
  if let some attempt := tried then note "content fallback" (Content.fallbackFields attempt)
  match result with
  | .ok found => return found
  | .error e => throw e

/-- The key under which a content is cached, if there is a cache and the name means something. -/
def cacheKey? (kind : ContentKind) (name : Text) : ParseM (Option (Cache × Text)) := do
  let s ← get
  match s.world.cache with
  | none => return none
  | some c =>
    if !Path.isValidName name then return none
    return (Path.resolve? s.path name).map fun (resolved, _) => (c, Cache.key kind resolved)

/-- Reads the content that a name means and converts it, given its data and its path. -/
def freshContent (t : Tools) (name : Text) (pos : Option Position)
    (convert : Text → Text → ParseM Fragment) : ParseM Fragment := do
  let (data, file) ← readContent t name pos
  convert data file

/-- The same from the cache, if it is there; else it is kept there. -/
def cachedContent (t : Tools) (kind : ContentKind) (name : Text) (pos : Option Position)
    (convert : Text → Text → ParseM Fragment) : ParseM Fragment := do
  match ← cacheKey? kind name with
  | none => freshContent t name pos convert
  | some (cache, key) =>
    match cache.get? key with
    | some fragment =>
      note "cache hit" [("key", key)]
      return fragment
    | none =>
      note "cache miss" [("key", key)]
      let fragment ← freshContent t name pos convert
      modify fun s => { s with
        world := { s.world with cache := s.world.cache.map (·.put key fragment) } }
      return fragment

/-- Fails on a name that cannot be looked up. -/
def checkName (name : Text) (pos : Option Position) : ParseM Unit := do
  if !Path.isValidName name then fail pos (.invalidPath name)
  if (Path.resolve? (← get).path name).isNone then fail pos (.outsideRoot name)

/-- Leaves the content of a file to be read later. -/
def laterContent (name : Text) (pos : Option Position) (markdown : Bool) : ParseM Outcome := do
  checkName name pos
  emit [.external pos name (← get).path markdown]
  return .next

/-- Renders Markdown. -/
def markdownText (t : Tools) (src : Text) (pos : Option Position) : ParseM Text := do
  match Content.renderMarkdown t.settings src pos with
  | .ok html => return html
  | .error e => throw e

/-- Writes the content of a file as it is. -/
def htmlFile (cached : Bool) (t : Tools) (id : Ident) : ParseM Outcome := do
  let (name, pos) ← pathArgument id
  if !cached then laterContent name pos false
  else
    let fragment ← cachedContent t .html name pos fun data _ =>
      return { nodes := [.text pos data] }
    emit fragment.nodes
    return .next

/-- Writes the content of a Markdown file. -/
def markdownFile (cached : Bool) (t : Tools) (id : Ident) : ParseM Outcome := do
  let (name, pos) ← pathArgument id
  if !cached then laterContent name pos true
  else
    let fragment ← cachedContent t .markdown name pos fun data _ =>
      return { nodes := [.text pos (← markdownText t data pos)] }
    emit fragment.nodes
    return .next

/-- The Markdown after the directive: a string, or what stands in braces. -/
def markdownSource (id : Ident) : ParseM (Text × Option Position) := do
  let tok ← argument id "string or \x7b"
  let wrong : ParseM (Text × Option Position) :=
    unexpected tok (.afterDirective (utf8 "markdown") (utf8 "string or \x7b"))
  match tok with
  | .literal l =>
    if !l.isString then wrong
    else match l.value? with
      | some src => return (src, tok.pos)
      | none => fail l.pos (.invalidString l.raw)
  | .group f ts =>
    if f.delim = .brace then
      return (Text.dedent (Token.sourceWithSpace ts ++ f.closeSpace), tok.pos)
    else wrong
  | _ => wrong

/-- Writes Markdown that stands in the template. -/
def markdown (t : Tools) (id : Ident) : ParseM Outcome := do
  let (src, pos) ← markdownSource id
  skip 1
  emitText (← markdownText t src pos) pos
  return .next

/-- Parses an included template, unless it is being parsed already. -/
def embedTemplate (t : Tools) (pos : Option Position) (src file : Text) : ParseM Fragment := do
  let s ← get
  let chain := s.includers ++ [s.path]
  if chain.contains file then fail pos (.cycle (chain.dropWhile (· ≠ file) ++ [file]))
  note "include" [("file", file)]
  t.embed file src

/-- Writes the markup of another template, and takes over its imports and statements. -/
def templateFile (cached : Bool) (t : Tools) (id : Ident) : ParseM Outcome := do
  let (name, pos) ← pathArgument id
  let fragment ←
    if cached then cachedContent t .template name pos (embedTemplate t pos)
    else freshContent t name pos (embedTemplate t pos)
  declare fun d =>
    fragment.injects.foldl Declarations.addInject (fragment.imports.foldl Declarations.addImport d)
  emit fragment.nodes
  return .next

end Atmark.Directive
