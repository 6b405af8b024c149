import Atmark.Directive.Content
import Atmark.Directive.Environment
import Atmark.Directive.Section

/-!
The directives and hooks that every compilation has unless it is told otherwise.
-/
namespace Atmark

/-- A directive of the language: none goes back. -/
def builtin (name : String) (run : Tools → Ident → ParseM Outcome) : Directive :=
  { name := utf8 name, run }

/-- The directives of the language. -/
def builtinDirectives : List Directive :=
  [builtin "model" fun _ => Directive.model,
    builtin "name" fun _ => Directive.viewName,
    builtin "viewstart" fun _ => Directive.parameter,
    builtin "lang" fun _ => Directive.parameter,
    builtin "use" fun _ => Directive.use,
    builtin "inject" fun _ => Directive.inject,
    builtin "functions" fun _ => Directive.codeSection,
    builtin "struct" fun _ => Directive.codeSection,
    builtin "impl" fun _ => Directive.codeSection,
    builtin "for" Directive.forLoop,
    builtin "while" Directive.whileLoop,
    builtin "if" Directive.condition,
    builtin "else" fun _ => Directive.loneElse,
    builtin "section" Directive.defineSection,
    builtin "rendersection" Directive.renderSection,
    builtin "renderbody" fun _ => Directive.renderBody,
    builtin "htmlfile" (Directive.htmlFile true),
    builtin "htmlfile_nocache" (Directive.htmlFile false),
    builtin "rusthtmlfile" (Directive.templateFile true),
    builtin "rusthtmlfile_nocache" (Directive.templateFile false),
    builtin "markdown" Directive.markdown,
    builtin "markdownfile" (Directive.markdownFile true),
    builtin "markdownfile_nocache" (Directive.markdownFile false)]

/-- The registry with the directives of the language and the environment element. -/
def Registry.standard : Registry :=
  { directives := builtinDirectives, elementHooks := [Environment.hook] }

end Atmark
