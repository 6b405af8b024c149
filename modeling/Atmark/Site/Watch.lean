import Atmark.Path
import Atmark.Site.Config
import Atmark.View.Name

/-!
Which changes below a watched directory call for a new compilation.
-/
namespace Atmark.Watch

/-- The element of a path names a hidden file or directory. -/
def isHidden (e : Text) : Bool := e.head? = some 0x2E && e ≠ Path.here && e ≠ Path.parent

/-- A change of the file `name` means nothing to the compilation of `dir`: it is a generated file, it is
hidden or out of reach, or it is the configuration, which is read only once. -/
def ignores (dir name : Text) : Bool :=
  Text.endsWith View.generatedExtension name || match Path.relative? dir name with
    | none => true
    | some p => (Path.elements p).any isHidden || p = Config.fileName

end Atmark.Watch
