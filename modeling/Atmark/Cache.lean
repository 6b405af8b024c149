import Atmark.Node.Basic

/-!
A cache of included contents. A fragment is kept under the kind of the content and the path it was
looked for at, so that it is read and parsed only once; `erase` forgets the fragments of a path,
whatever their kind.
-/
namespace Atmark

/-- An imported package; without a name it is imported under its own. -/
structure Import where
  name : Text
  path : Text
  deriving DecidableEq, Repr

/-- What an included content contributes: its nodes, and the imports and the statements that it
declares. -/
structure Fragment where
  nodes : List Node
  imports : List Import := []
  injects : List (List Token) := []

/-- The kinds of included contents. -/
inductive ContentKind where
  | html
  | markdown
  | template
  deriving DecidableEq, Repr

/-- The kind as it stands in a key. -/
def ContentKind.label : ContentKind → Text
  | .html => utf8 "html"
  | .markdown => utf8 "markdown"
  | .template => utf8 "rusthtml"

/-- Fragments by their keys; a key occurs once. -/
structure Cache where
  entries : List (Text × Fragment) := []

namespace Cache

/-- The key of a content of the given kind at a path. -/
def key (kind : ContentKind) (path : Text) : Text := kind.label ++ utf8 ":" ++ path

/-- The kind and the path of a key, parted at its first colon. -/
def splitKey (k : Text) : Text × Text := (Text.cut? 0x3A k).getD (k, [])

/-- The fragment under a key. -/
def get? (c : Cache) (k : Text) : Option Fragment := (c.entries.find? (·.1 = k)).map (·.2)

/-- The cache with a fragment under a key. -/
def put (c : Cache) (k : Text) (f : Fragment) : Cache := ⟨(k, f) :: c.entries.filter (·.1 ≠ k)⟩

/-- The cache without the fragments of a path. -/
def erase (c : Cache) (path : Text) : Cache := ⟨c.entries.filter fun e => (splitKey e.1).2 ≠ path⟩

/-- The number of fragments. -/
def size (c : Cache) : Nat := c.entries.length

end Cache
end Atmark
