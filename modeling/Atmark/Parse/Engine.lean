import Atmark.Node.Classify
import Atmark.Parse.Element
import Atmark.Token.Lex

/-!
The loop over the tokens of a stream and the way from a source to a parsed template. Every turn of the
loop takes a token and every nested region is part of the tokens left, so the number of tokens of a file
bounds both, as long as no directive goes back; a chain of includes never repeats a file, so the number
of files bounds it.
-/
namespace Atmark

namespace Registry
open ParseM

/-- Goes on with the stream, unless a directive has ended it. -/
def goOn (t : Tools) : ParseM (Option ClosingTag) := do
  let s ← get
  if s.broken then
    set { s with broken := false }
    return none
  else t.resume

/-- One turn of the loop: does what the next token asks for, and goes on. -/
def turn (r : Registry) (t : Tools) : ParseM (Option ClosingTag) := do
  checkStop
  match ← rest with
  | [] => return none
  | tok :: ts =>
    setLast tok.pos
    let s ← get
    match tok.action s.markup s.atStatementStart with
    | .text =>
      skip 1
      emitText (tok.space ++ tok.brief) tok.pos
      goOn t
    | .group f cs =>
      skip 1
      t.group f cs
      goOn t
    | .marker =>
      r.marker t tok
      goOn t
    | .tag lt =>
      match ← r.tagEntry t lt ts with
      | some closing => return some closing
      | none => goOn t
    | .identifier =>
      emit (← t.expression)
      goOn t
    | .literal l =>
      skip 1
      emit [.literal l]
      goOn t
    | .code p =>
      t.code p
      goOn t
    | .stop => return none

/-- The loop, with at most `n` turns and regions inside each other. -/
def loop (r : Registry) (settings : Settings) (embed : Text → Text → ParseM Fragment) :
    Nat → ParseM (Option ClosingTag)
  | 0 => throw .exhausted
  | n + 1 => r.turn
    { settings, embed, knows := fun name => (r.directive? name).isSome,
      resume := r.loop settings embed n, turns := n }

end Registry

/-- A step of a compilation outside any file. -/
abbrev WorldM := EStateM Error World

/-- A step outside the file, taken from inside it. -/
def ParseM.ofWorld {α : Type} (m : WorldM α) : ParseM α := fun s =>
  match m s.world with
  | .ok a w => .ok a { s with world := w }
  | .error e w => .error e { s with world := w }

/-- A step inside a file, taken from outside; the state of the file is given back. -/
def WorldM.ofParse {α : Type} (s : World → State) (m : ParseM α) : WorldM (α × State) := fun w =>
  match m (s w) with
  | .ok a s => .ok (a, s) s.world
  | .error e s => .error e s.world

/-- Adds a debug record. -/
def WorldM.note (message : String) (fields : List (String × Text)) : WorldM Unit :=
  modify fun w => { w with log := { message, fields } :: w.log }

namespace Registry

/-- Parses a source at a path, included by a chain of files; at most `n` includes go into each other. -/
def parseSource (r : Registry) (settings : Settings) :
    Nat → List Text → Text → Text → WorldM (List Node × Declarations)
  | 0, _, _, _ => throw .exhausted
  | n + 1, includers, path, src => fun w =>
    match Token.lex src with
    | .error e => .error (e.withPath path) w
    | .ok (tokens, trailing) =>
      let embed (file src : Text) : ParseM Fragment := do
        let chain := includers ++ [path]
        let (nodes, declared) ← ParseM.ofWorld (r.parseSource settings n chain file src)
        return { nodes, imports := declared.imports, injects := declared.injects }
      let run : ParseM Unit := do
        ParseM.checkStop
        match ← r.loop settings embed (r.turns w tokens) with
        | some c => ParseM.fail c.pos (.strayClosingTag c.name)
        | none => ParseM.emitText trailing (Stream.ofTokens tokens).stop
      let start (w : World) : State := { world := w, path, includers, stream := .ofTokens tokens }
      match WorldM.ofParse start run w with
      | .ok (_, s) w => .ok (s.sink.reverse, s.declared) w
      | .error e w => .error (e.withPath path) w

end Registry

/-- A parsed template. -/
structure Template where
  path : Text
  declared : Declarations
  nodes : List Node

namespace Template

/-- A chain of includes longer than this repeats a file. -/
def includeBound (settings : Settings) : Nat :=
  (settings.files.map (·.entries.length)).getD 0 + 3

/-- Parses the source of a template at a path. -/
def parse (r : Registry) (settings : Settings) (path src : Text) : WorldM Template := do
  let (nodes, declared) ← r.parseSource settings (includeBound settings) [] path src
  return { path, declared, nodes }

/-- The source of the template at a path of the files. -/
def readSource (settings : Settings) (path : Text) : Except Error Text :=
  match settings.files with
  | none => .error .noFiles
  | some files =>
    if !Path.isFilePath path then .error .invalidPath
    else match files.read path with
      | .ok src => .ok src
      | .error e => .error (if e.trouble.isAbsence then .notExist else .file e)

/-- Parses the template at a path of the files. -/
def parseFile (r : Registry) (settings : Settings) (path : Text) : WorldM Template := do
  match readSource settings path with
  | .ok src => parse r settings path src
  | .error e => throw e

end Template
end Atmark
