import Atmark.Text.Basic

/-!
Slash-separated paths. A cleaned path has no empty and no `.` element, and `..` only at the beginning
of a path that is not rooted. `resolve?` finds what a template means by the name of another file; it
never leads out of the root.
-/
namespace Atmark.Path

/-- The separator of path elements. -/
def slash : UInt8 := 0x2F

/-- The element that names the directory itself. -/
def here : Text := utf8 "."

/-- The element that names the parent directory. -/
def parent : Text := utf8 ".."

/-- The elements between slashes. -/
def elements (p : Text) : List Text := Text.splitOn slash p

/-- The path starts at the root. -/
def isRooted (p : Text) : Bool := p.head? == some slash

/-- One more element after those of a cleaned path, latest first. -/
def descend (rooted : Bool) (above : List Text) (e : Text) : List Text :=
  if e.isEmpty || e = here then above
  else if e = parent then
    match above with
    | [] => if rooted then [] else [parent]
    | a :: as => if a = parent then parent :: a :: as else as
  else e :: above

/-- The elements of a path in cleaned form. -/
def cleanElements (rooted : Bool) (es : List Text) : List Text :=
  (es.foldl (descend rooted) []).reverse

/-- The shortest path with the same meaning. -/
def clean (p : Text) : Text :=
  let body := Text.intercalate [slash] (cleanElements (isRooted p) (elements p))
  if isRooted p then slash :: body else if body.isEmpty then here else body

/-- The cleaned path of a name below a directory; an empty part counts for nothing. -/
def join (dir name : Text) : Text :=
  if dir.isEmpty && name.isEmpty then []
  else if dir.isEmpty then clean name
  else if name.isEmpty then clean dir
  else clean (dir ++ [slash] ++ name)

/-- The path up to its last slash, in cleaned form. -/
def dir (p : Text) : Text := clean (p.reverse.dropWhile (· != slash)).reverse

/-- The last element of a path. -/
def base (p : Text) : Text :=
  if p.isEmpty then here
  else
    let trimmed := p.reverse.dropWhile (· == slash)
    if trimmed.isEmpty then [slash] else (trimmed.takeWhile (· != slash)).reverse

/-- The path names a file of a file system: no empty, `.` or `..` element, except `.` alone. -/
def isFilePath (p : Text) : Bool :=
  Text.isValid p && (p = here ||
    (elements p).all fun e => !e.isEmpty && e != here && e != parent)

/-- The name may stand in a template for another file. -/
def isValidName (p : Text) : Bool :=
  Text.isValid p && !p.isEmpty && p != parent && p.getLast? != some slash &&
    !Text.holds (utf8 "//") p && !Text.endsWith (utf8 "/..") p

/-- A cleaned path that leads out of the root. -/
def leavesRoot (p : Text) : Bool := p = parent || Text.startsWith (utf8 "../") p

/-- What a name in the file `file` means, and where to look next: in the parent of the directory of
the file. Both are the same if there is no such place; a name that leads out of the root means
nothing. -/
def resolve? (file name : Text) : Option (Text × Text) :=
  if isRooted name then some ((clean name).tail, (clean name).tail)
  else
    let resolved := join (dir file) name
    if leavesRoot resolved then none
    else
      let fallback := join (dir (dir file)) name
      some (resolved, if leavesRoot fallback then resolved else fallback)

/-- The elements of a cleaned path; `.` has itself as its only element. -/
def names (p : Text) : List Text :=
  if p = here then [here] else cleanElements (isRooted p) (elements p)

/-- Two lists without their common beginning. -/
def dropCommon : List Text → List Text → List Text × List Text
  | a :: as, b :: bs => if a = b then dropCommon as bs else (a :: as, b :: bs)
  | as, bs => (as, bs)

/-- The path that leads from a directory to a target, if the paths alone tell it: not from a directory
above an unknown one, nor between a rooted path and another. -/
def relative? (base target : Text) : Option Text :=
  let b := clean base
  let t := clean target
  if b = t then some here
  else if isRooted b != isRooted t then none
  else
    let (up, down) := dropCommon (if b = here then [] else names b) (names t)
    if up.head? = some parent && !down.isEmpty then none
    else some (Text.intercalate [slash] (up.map (fun _ => parent) ++ down))

end Atmark.Path
