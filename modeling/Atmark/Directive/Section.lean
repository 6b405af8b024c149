import Atmark.Directive.Declaration
import Atmark.Directive.Flow

/-!
Sections connect a view with its layout: the view defines them, the layout renders them and the body of
the view.
-/
namespace Atmark.Directive
open ParseM

/-- The name of the rendering context in the generated code. -/
def contextName : Text := utf8 "ctx"

/-- The name of a section: an identifier, or a string that is not empty. -/
def sectionName? : Token → Option Text
  | .ident t => if t.name.isEmpty then none else some t.name
  | .literal l => if l.isString then l.value?.filter (!·.isEmpty) else none
  | _ => none

/-- Defines a section. -/
def defineSection (t : Tools) (id : Ident) : ParseM Outcome := do
  let tok ← argument id "section name"
  match sectionName? tok with
  | none => unexpected tok (.afterDirective (utf8 "section") (utf8 "section name"))
  | some name =>
    skip 1
    match (← get).stream.peekGroup .brace with
    | none => fail tok.pos (.missingBrace (utf8 "section " ++ name))
    | some (f, ts) =>
      skip 1
      let nodes ← t.region f ts true
      emit [.define id.pos name nodes]
      trimLine
      return .next

/-- The value of a call of a method of the rendering context. -/
def contextCall (id : Ident) (method : String) (f : Frame) (args : List Node) : Node :=
  let word := Token.ident id
  .write id.pos
    [keyword word contextName "", sign id.pos '.' "", keyword word (utf8 method) "", .group f args]

/-- The parentheses that follow the directive directly. -/
def callArguments? : ParseM (Option (Frame × List Token)) := do
  return ((← get).stream.peekGroup .parenthesis).filter (·.1.space.isEmpty)

/-- Writes a section of the view. The arguments are its name and whether it is required. -/
def renderSection (t : Tools) (id : Ident) : ParseM Outcome := do
  match ← callArguments? with
  | none => fail id.pos .missingSectionCall
  | some (f, ts) =>
    skip 1
    let args ← t.region f ts false
    if args.isEmpty then fail f.pos .missingSectionName
    emit [contextCall id "RenderSection" f args]
    return .next

/-- Writes the body of the view. -/
def renderBody (id : Ident) : ParseM Outcome := do
  match ← callArguments? with
  | some (f, ts) =>
    skip 1
    if !ts.isEmpty then fail f.pos .bodyArguments
    emit [contextCall id "RenderBody" f []]
  | none => emit [contextCall id "RenderBody" ⟨id.pos, [], .parenthesis, []⟩ []]
  return .next

end Atmark.Directive
