import Atmark.Markdown.Address
import Atmark.Markdown.Emphasis
import Atmark.Text.Case
import Atmark.Text.Trim

/-!
Links and images. What one leads to stands after it in parentheses, or in a definition somewhere in the
text, `[label]: address "title"`, found by its label. A paragraph may begin with definitions; they are
not part of it.
-/
namespace Atmark.Markdown

/-- What a link leads to, as it is written in the text. -/
structure Target where
  address : Text
  title : Option Text := none

/-- A definition of a label. -/
structure Definition where
  label : Text
  target : Target

/-- The text up to a closing mark, and what follows it. A backslash makes a mark literal; a second
opening mark is not allowed. -/
def closure? (opener closer : UInt8) : Text → Option (Text × Text)
  | [] => none
  | 0x5C :: b :: r =>
    if isMark b then (closure? opener closer r).map fun (x, y) => (0x5C :: b :: x, y)
    else (closure? opener closer (b :: r)).map fun (x, y) => (0x5C :: x, y)
  | b :: r =>
    if b = closer then some ([], r)
    else if b = opener then none
    else (closure? opener closer r).map fun (x, y) => (b :: x, y)

/-- The address before a closing angle bracket on the same line, and what follows. -/
def angleAddress? : Text → Option (Text × Text)
  | [] => none
  | 0x5C :: b :: r =>
    if isMark b then (angleAddress? r).map fun (x, y) => (0x5C :: b :: x, y)
    else (angleAddress? (b :: r)).map fun (x, y) => (0x5C :: x, y)
  | b :: r =>
    if b = 0x3E then some ([], r)
    else if b = 0x0A then none
    else (angleAddress? r).map fun (x, y) => (b :: x, y)

/-- The address up to a space or a parenthesis that is not opened in it, and what follows. -/
def plainAddress (depth : Nat) : Text → Text × Text
  | [] => ([], [])
  | 0x5C :: b :: r =>
    if isMark b then
      let (x, y) := plainAddress depth r
      (0x5C :: b :: x, y)
    else
      let (x, y) := plainAddress depth (b :: r)
      (0x5C :: x, y)
  | b :: r =>
    if isSpace b || (b = 0x29 && depth = 0) then ([], b :: r)
    else
      let depth := if b = 0x28 then depth + 1 else if b = 0x29 then depth - 1 else depth
      let (x, y) := plainAddress depth r
      (b :: x, y)

/-- The address at the beginning of a text, and what follows. -/
def address? (t : Text) : Option (Text × Text) :=
  match t with
  | 0x3C :: r => angleAddress? r
  | _ =>
    let (address, rest) := plainAddress 0 t
    if address.isEmpty then none else some (address, rest)

/-- The title at the beginning of a text, and what follows. -/
def title? (t : Text) : Option (Text × Text) :=
  match t with
  | b :: r =>
    if b = 0x22 || b = 0x27 then closure? b b r
    else if b = 0x28 then closure? b 0x29 r
    else none
  | [] => none

/-- The target in parentheses, given the text after the opening one, and what follows. -/
def target? (t : Text) : Option (Target × Text) :=
  match t.dropWhile isSpace with
  | 0x29 :: rest => some (⟨[], none⟩, rest)
  | t => do
    let (address, r) ← address? t
    match r.dropWhile isSpace with
    | 0x29 :: rest => some (⟨address, none⟩, rest)
    | r =>
      let (title, r) ← title? r
      match r.dropWhile isSpace with
      | 0x29 :: rest => some (⟨address, some title⟩, rest)
      | _ => none

/-- The form of a label in which it is looked up: case and amount of white space do not matter. -/
def labelKey (label : Text) : Text :=
  let words := (Text.splitOn 0x20 (label.map fun b => if isSpace b then 0x20 else b)).filter
    (!·.isEmpty)
  Text.lower (Text.intercalate [0x20] words)

/-- The target of a label: the first definition counts. -/
def lookUp (definitions : List Definition) (label : Text) : Option Target :=
  (definitions.find? fun d => labelKey d.label = labelKey label).map (·.target)

/-- The text after the rest of its first line. -/
def nextLine (t : Text) : Text := (t.dropWhile (· != 0x0A)).drop 1

/-- The first line of a text has nothing but white space. -/
def isLineBlank (t : Text) : Bool := (t.takeWhile (· != 0x0A)).all isSpace

/-- The definition at the beginning of a text, and what follows its last line. A title on a line of its
own that does not end there is not part of it. -/
def definition? (t : Text) : Option (Definition × Text) := do
  let r ← Text.strip? [0x5B] t
  let (label, r) ← closure? 0x5B 0x5D r
  if label.all isSpace then none
  let r ← Text.strip? [0x3A] r
  let (address, r) ← address? (r.dropWhile isSpace)
  let alone := if isLineBlank r then some (⟨label, ⟨address, none⟩⟩, nextLine r) else none
  let spaced := r.dropWhile isSpace
  if !spaced.head?.any fun b => b = 0x22 || b = 0x27 || b = 0x28 then alone
  else if spaced.length = r.length then none
  else match title? spaced with
    | none => alone
    | some (title, after) =>
      if isLineBlank after then some (⟨label, ⟨address, some title⟩⟩, nextLine after) else alone

/-- The definitions that a text begins with, and the text after them. At most `n` are read. -/
def definitions : Nat → Text → List Definition × Text
  | 0, t => ([], t)
  | n + 1, t => match definition? t with
    | none => ([], t)
    | some (d, rest) =>
      let (ds, rest) := definitions n (rest.dropWhile isSpace)
      (d :: ds, rest)

/-- The attributes of a link or of an image: the address under a name, and the title. -/
def Target.attrs (t : Target) (name : String) (plain : Option Text) : Text :=
  let unescaped := unescape t.address
  let address := escapeAddress (withCharacters unescaped.length unescaped)
  utf8 " " ++ utf8 name ++ utf8 "=\"" ++ escape address ++ utf8 "\"" ++
    (match plain with
      | none => []
      | some alt => utf8 " alt=\"" ++ alt ++ utf8 "\"") ++
    match t.title with
    | none => []
    | some title => utf8 " title=\"" ++ escape (literalText title.length title) ++ utf8 "\""

/-- A link around a part of a text. -/
def linked (t : Target) (inner : Span) : Item :=
  .link (inner.enclose (utf8 "<a" ++ t.attrs "href" none ++ utf8 ">") (utf8 "</a>"))

/-- An image that a part of a text stands for. -/
def imaged (t : Target) (inner : Span) : Item :=
  .markup ⟨utf8 "<img" ++ t.attrs "src" (some inner.plain) ++ utf8 ">", inner.plain⟩

/-- A link to an address that is written in the text itself. -/
def autolinked (address shown : Text) : Item :=
  .markup ⟨utf8 "<a href=\"" ++ escape (escapeAddress address) ++ utf8 "\">" ++ escape shown ++
    utf8 "</a>", escape shown⟩

end Atmark.Markdown
