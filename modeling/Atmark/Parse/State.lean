import Atmark.Cache
import Atmark.Files
import Atmark.Log
import Atmark.Text.Case
import Atmark.Text.Trim
import Atmark.Token.Stream

/-!
The state of parsing one file. What outlives the file is the `World`: the cache, the log and the right
to go on. A parsing step ends with a result or an error and keeps the state either way, so that what
was cached and logged before an error stays.
-/
namespace Atmark

/-- What all files of a compilation share. -/
structure World where
  /-- The cache of included contents, if there is one. -/
  cache : Option Cache := none
  /-- The records so far, latest first. -/
  log : List Record := []
  /-- How many more checks find that the compilation may go on; without a number all do. -/
  budget : Option Nat := none
  /-- Why the compilation may not go on, once it may not. -/
  cause : StopCause := .cancelled

/-- What the directives of a file declare. -/
structure Declarations where
  model : Option (List Token) := none
  modelPos : Option Position := none
  name : Text := []
  namePos : Option Position := none
  sections : List (Text × List Token) := []
  parameters : List (Text × Text × Option Position) := []
  imports : List Import := []
  injects : List (List Token) := []

namespace Declarations

/-- Adds an import unless it is there already. -/
def addImport (d : Declarations) (i : Import) : Declarations :=
  if d.imports.contains i then d else { d with imports := d.imports ++ [i] }

/-- Adds a statement unless one with the same source is there already. -/
def addInject (d : Declarations) (stmt : List Token) : Declarations :=
  if d.injects.any fun s => Token.sourceOf s = Token.sourceOf stmt then d
  else { d with injects := d.injects ++ [stmt] }

/-- The tokens declared for a section so far. -/
def sectionOf? (d : Declarations) (name : Text) : Option (List Token) :=
  (d.sections.find? (·.1 = name)).map (·.2)

/-- Declares the tokens of a section. -/
def putSection (d : Declarations) (name : Text) (ts : List Token) : Declarations :=
  { d with sections := (name, ts) :: d.sections.filter (·.1 ≠ name) }

end Declarations

/-- The state of parsing one file. -/
structure State where
  world : World
  /-- Path of the file. -/
  path : Text
  /-- Paths of the files that include it, the outermost first. -/
  includers : List Text
  declared : Declarations := {}
  stream : Stream
  /-- Nodes of the region being read, latest first. -/
  sink : List Node := []
  /-- A statement can start at the beginning of the region. -/
  atStart : Bool := true
  /-- Markup is being read, not code. -/
  markup : Bool := true
  /-- The last token read, where a stop is reported. -/
  last : Option Position := some .origin
  /-- A directive has ended the group or file it stands in. -/
  broken : Bool := false
  /-- The rest of the line is left out if it is blank. -/
  trimLine : Bool := false

/-- A step of parsing a file. -/
abbrev ParseM := EStateM Error State

namespace State

/-- The text without the rest of a blank line, and whether the line is still going on. -/
def trimText (t : Text) : Text × Bool :=
  match t.dropWhile Text.isIndent with
  | [] => ([], true)
  | 0x0A :: r => (r, false)
  | 0x0D :: 0x0A :: r => (r, false)
  | _ => (t, false)

/-- The state after a text. While a line is being trimmed, a text with nothing else on that line is
dropped, and one that joins the text before it loses the rest of the line; a text that starts a new node
is kept as it is. -/
def pushText (s : State) (pos : Option Position) (t : Text) : State :=
  let (trimmed, trimLine) := if s.trimLine then trimText t else (t, false)
  if trimmed.isEmpty then { s with trimLine }
  else match s.sink with
    | .text p before :: rest =>
      let span := p.map (·.withStop (pos.getD .zero).stop)
      { s with trimLine, sink := .text span (before ++ trimmed) :: rest }
    | sink => { s with trimLine := false, sink := .text pos t :: sink }

/-- The state after a node. -/
def push (s : State) : Node → State
  | .text pos t => s.pushText pos t
  | n => { s with trimLine := false, sink := n :: s.sink }

/-- A statement can start where the next node goes. -/
def atStatementStart (s : State) : Bool :=
  match s.sink with
  | [] => s.atStart
  | n :: _ => n.endsStatement

end State

namespace ParseM

/-- Fails with a fault at a position of the file. -/
def fail {α : Type} (pos : Option Position) (cause : Fault) : ParseM α := throw (Error.at? pos cause)

/-- Fails because of a token that fits nowhere. -/
def unexpected {α : Type} (t : Token) (c : Context) : ParseM α := fail t.pos (.unexpected t c)

/-- The tokens still to be read. -/
def rest : ParseM (List Token) := return (← get).stream.rest

/-- The next token. -/
def peek : ParseM (Option Token) := return (← get).stream.peek

/-- Passes over tokens. -/
def skip (n : Nat) : ParseM Unit := modify fun s => { s with stream := s.stream.skip n }

/-- Notes the last token read. -/
def setLast (pos : Option Position) : ParseM Unit := modify fun s => { s with last := pos }

/-- Adds nodes to the region being read. -/
def emit (ns : List Node) : ParseM Unit := modify fun s => ns.foldl State.push s

/-- Adds a text to the region being read. -/
def emitText (t : Text) (pos : Option Position) : ParseM Unit := modify fun s => s.pushText pos t

/-- Leaves out the rest of the line if it is blank. A directive that only declares something does so,
so that it leaves no empty line. -/
def trimLine : ParseM Unit := modify fun s => { s with trimLine := true }

/-- Adds a debug record. -/
def note (message : String) (fields : List (String × Text)) : ParseM Unit :=
  modify fun s =>
    let record : Record :=
      { message, fields := [("component", utf8 "parser"), ("path", s.path)] ++ fields }
    { s with world := { s.world with log := record :: s.world.log } }

/-- Changes the declarations of the file. -/
def declare (f : Declarations → Declarations) : ParseM Unit :=
  modify fun s => { s with declared := f s.declared }

/-- Stops here if the compilation may not go on. -/
def checkStop : ParseM Unit := do
  let s ← get
  match s.world.budget with
  | none => pure ()
  | some 0 => throw (.stopped [] (s.last.getD .zero) s.world.cause)
  | some (n + 1) => set { s with world := { s.world with budget := some n } }

end ParseM
end Atmark
