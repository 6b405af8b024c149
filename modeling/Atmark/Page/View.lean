import Atmark.Page.Value
import Atmark.Text.Quoted

/-!
Views as programs that write to a page. A view may define sections, which are programs themselves and
run each time they are rendered; a layout renders the sections and the output of the view. A required
section that is not defined is noted where it is rendered, and makes the whole page fail.
-/
namespace Atmark.Page

/-- A step of a view. -/
inductive Step where
  | literal (t : Text)
  | value (v : Value)
  | model
  | environment
  | service (name : Text)
  | define (name : Text) (body : List Step)
  | renderSection (name : Text) (required : Bool)
  | renderBody
  deriving Inhabited

/-- What the steps of a page share. -/
structure Context where
  environment : Text
  /-- The sections, the latest definition of a name first. -/
  sections : List (Text × List Step) := []
  /-- The output of the view, while the layout runs. -/
  body : Text := []
  /-- The required sections that were not defined when they were rendered, in order. -/
  missing : List Text := []

namespace Context

/-- The definition of a section. -/
def section? (c : Context) (name : Text) : Option (List Step) := c.sections.lookup name

/-- Defines a section, in place of an earlier definition. -/
def define (c : Context) (name : Text) (body : List Step) : Context :=
  { c with sections := (name, body) :: c.sections }

/-- The context after the rendering of a section that is not defined. -/
def note (c : Context) (name : Text) (required : Bool) : Context :=
  if required then { c with missing := c.missing ++ [name] } else c

/-- The text of an undefined section. -/
def missingText (name : Text) : Text :=
  utf8 "rusthtml: section " ++ Text.quote name ++ utf8 ": section not defined"

/-- The text of all undefined sections, if there are any. -/
def failure? (c : Context) : Option Text :=
  if c.missing.isEmpty then none
  else some (Text.intercalate (utf8 "\n") (c.missing.map missingText))

end Context

/-- What a page is given. -/
structure Inputs where
  model : Value := .absent
  services : List (Text × Value) := []

/-- The value of a service; there is none without that name. -/
def Inputs.service (i : Inputs) (name : Text) : Value := (i.services.lookup name).getD .absent

/-- The output and the context after steps, given how the body of a section is run. Without an answer
the sections never come to an end. -/
def runWith (inner : List Step → Context → Option (Text × Context)) (i : Inputs) :
    List Step → Context → Option (Text × Context)
  | [], c => some ([], c)
  | s :: ss, c =>
    let goOn (t : Text) (c : Context) : Option (Text × Context) :=
      (runWith inner i ss c).map fun (u, c) => (t ++ u, c)
    match s with
    | .literal t => goOn t c
    | .value v => goOn v.show c
    | .model => goOn i.model.show c
    | .environment => goOn c.environment c
    | .service name => goOn (i.service name).show c
    | .define name body => goOn [] (c.define name body)
    | .renderBody => goOn c.body c
    | .renderSection name required =>
      match c.section? name with
      | none => goOn [] (c.note name required)
      | some body => (inner body c).bind fun (t, c) => goOn t c

/-- The output and the context after steps, with at most `n` sections inside each other. -/
def run (i : Inputs) : Nat → List Step → Context → Option (Text × Context)
  | 0, steps, c => runWith (fun _ _ => none) i steps c
  | n + 1, steps, c => runWith (run i n) i steps c

mutual

/-- The number of sections that a step defines, those inside it included. -/
def Step.definitions : Step → Nat
  | .define _ body => definitionsOf body + 1
  | _ => 0

/-- The number of sections that steps define. -/
def definitionsOf : List Step → Nat
  | [] => 0
  | s :: ss => s.definitions + definitionsOf ss

end

/-- How a page fails. -/
inductive Failure where
  /-- Required sections are not defined. -/
  | undefinedSections (text : Text)
  /-- A section renders itself without end. -/
  | endless
  deriving DecidableEq, Repr

/-- How deep the sections of a page that comes to an end go into each other, given the number of
definitions in it. A section may render the same name again if it is defined anew in between, so names
do not bound it. But whoever enters a body again while it runs, with every name defined as before, never
leaves; and there are no more than this many pairs of a body and a choice of definitions. -/
def depth (definitions : Nat) : Nat := (definitions + 1).pow (definitions + 1)

/-- The page of a view, put into a layout if there is one. -/
def render (environment : Text) (i : Inputs) (view : List Step) (layout : Option (List Step)) :
    Except Failure Text :=
  let bound := depth (definitionsOf view + definitionsOf (layout.getD []))
  let page := do
    let (body, c) ← run i bound view { environment }
    match layout with
    | none => return (body, c)
    | some steps => run i bound steps { c with body := body }
  match page with
  | none => .error .endless
  | some (html, c) => match c.failure? with
    | some t => .error (.undefinedSections t)
    | none => .ok html

end Atmark.Page
