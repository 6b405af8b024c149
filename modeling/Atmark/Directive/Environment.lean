import Atmark.Parse.Registry
import Atmark.Text.Trim

/-!
The environment element: its children are kept, without the element, if the environment of the
compilation is among the included names and not among the excluded ones.
-/
namespace Atmark.Environment

/-- The names in an attribute value, parted by commas. -/
def names (value : Text) : List Text :=
  ((Text.splitOn 0x2C value).map Text.trim).filter (!·.isEmpty)

/-- The names in an attribute of the element, if it has that attribute. -/
def listed? (c : ElementContext) (attr : String) : Except Error (Option (List Text)) :=
  match c.attribute? (utf8 attr) with
  | none => .ok none
  | some ⟨_, none⟩ => .error (.at? c.pos (.environmentWithoutValue (utf8 attr)))
  | some ⟨_, some v⟩ =>
    match v.static? with
    | none => .error (.at? v.pos (.environmentExpression (utf8 attr)))
    | some s => .ok (some (names s))

/-- The environment is among the names, whatever the case. -/
def isListed (env : Text) (ns : List Text) : Bool := ns.any (Text.sameFold · env)

/-- The element is kept in the environment. -/
def isKept (env : Text) (includes excludes : Option (List Text)) : Bool :=
  includes.all (isListed env) && !excludes.any (isListed env)

/-- Keeps the children of an environment element, or drops them. -/
def run (c : ElementContext) : Except Error (Option (List Node)) := do
  let includes ← listed? c "include"
  let excludes ← listed? c "exclude"
  if includes.isNone && excludes.isNone then throw (.at? c.pos .bareEnvironment)
  return some (if isKept c.environment includes excludes then c.children else [])

/-- The hook of the environment element. -/
def hook : ElementHook where
  accepts name := Text.sameFold name (utf8 "environment")
  run := run

end Atmark.Environment
