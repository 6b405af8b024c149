import Atmark.Text.Quoted
import Atmark.Text.Trim

/-!
Flat YAML documents: one mapping whose values are scalars or lists of scalars, with comments. Lists are
written in brackets or one item a line after a dash, the mapping in braces or one key a line. Documents
of any other form are refused, and so are values that go over several lines, brackets apart.
-/
namespace Atmark.Yaml

/-- A scalar. A quoted one is always a text, a plain one may stand for something else. -/
structure Scalar where
  text : Text
  quoted : Bool
  deriving DecidableEq, Repr

/-- What a key is mapped to. -/
inductive Value where
  | scalar (s : Scalar)
  | list (items : List Scalar)
  deriving Repr

namespace Scalar

/-- The scalar that stands where nothing is written. -/
def absent : Scalar := ⟨[], false⟩

/-- The scalar stands for no value. -/
def isNull (s : Scalar) : Bool :=
  !s.quoted && (["", "~", "null", "Null", "NULL"].map utf8).contains s.text

/-- The truth value that a scalar stands for. The older words for it also count when they are
quoted. -/
def bool? (s : Scalar) : Option Bool :=
  let among (words : List String) : Bool := (words.map utf8).contains s.text
  if !s.quoted && among ["true", "True", "TRUE"] then some true
  else if !s.quoted && among ["false", "False", "FALSE"] then some false
  else if among ["y", "Y", "yes", "Yes", "YES", "on", "On", "ON"] then some true
  else if among ["n", "N", "no", "No", "NO", "off", "Off", "OFF"] then some false
  else none

end Scalar

/-- The character may stand in a document. -/
def isAllowed (c : Char) : Bool :=
  let n := c.toNat
  n = 0x09 || n = 0x0A || n = 0x0D || (0x20 ≤ n && n ≤ 0x7E) || n = 0x85 ||
    (0xA0 ≤ n && n ≤ 0xFFFD && n ≠ 0xFEFF) || 0x10000 ≤ n

/-- The text with a line feed for each line break. -/
def unifyBreaks : Text → Text
  | [] => []
  | 0x0D :: 0x0A :: r => 0x0A :: unifyBreaks r
  | b :: r => (if b = 0x0D then 0x0A else b) :: unifyBreaks r

/-- Passes over spaces, empty lines and comments, and over tabs where they count as space. Gives what
follows and its column. -/
def nextToken (tabs comment : Bool) (column : Nat) : Text → Nat × Text
  | [] => (0, [])
  | b :: r =>
    if b = 0x0A then nextToken tabs false 0 r
    else if comment then nextToken tabs true column r
    else if b = 0x20 || (tabs && b = 0x09) then nextToken tabs false (column + 1) r
    else if b = 0x23 then nextToken tabs true column r
    else (column, b :: r)

/-- What follows a line of which nothing but space and a comment is left. -/
def endLine? (t : Text) : Option Text :=
  match t.dropWhile Text.isIndent with
  | [] => some []
  | b :: r =>
    if b = 0x0A then some r
    else if b = 0x23 then some ((r.dropWhile (· ≠ 0x0A)).drop 1)
    else none

/-- A blank, a line break or the end of the text follows. -/
def atGap : Text → Bool
  | [] => true
  | b :: _ => Text.isIndent b || b = 0x0A

/-- A line with the mark of the beginning or of the end of a document. -/
def isMarker (mark : String) (t : Text) : Bool :=
  match Text.strip? (utf8 mark) t with
  | some r => atGap r
  | none => false

/-- The document ends here. -/
def atEnd (column : Nat) (t : Text) : Bool :=
  t.isEmpty || (column = 0 && (isMarker "---" t || isMarker "..." t))

/-- A character that has a meaning of its own inside brackets. -/
def isFlowMark (b : UInt8) : Bool :=
  b = 0x2C || b = 0x3F || b = 0x5B || b = 0x5D || b = 0x7B || b = 0x7D

/-- A plain scalar can start here. -/
def startsPlain (inFlow : Bool) : Text → Bool
  | [] => false
  | b :: r =>
    if b = 0x2D then !atGap r
    else if b = 0x3F || b = 0x3A then !inFlow && !atGap r
    else !(Text.isIndent b || b = 0x0A) && !(utf8 ",[]\x7b\x7d#&*!|>'\"%@\x60").contains b

/-- The rest of a plain scalar, with the space after it, and what follows. -/
def plainRun (inFlow afterBlank : Bool) : Text → Text × Text
  | [] => ([], [])
  | b :: r =>
    if b = 0x0A || (b = 0x23 && afterBlank) || (b = 0x3A && atGap r) || (inFlow && isFlowMark b) then
      ([], b :: r)
    else
      let (x, y) := plainRun inFlow (Text.isIndent b) r
      (b :: x, y)

/-- The rest of a text in single quotes, where a quote is written twice, and what follows. -/
def singleQuoted : Text → Option (Text × Text)
  | [] => none
  | 0x27 :: 0x27 :: r => (singleQuoted r).map fun (x, y) => (0x27 :: x, y)
  | b :: r =>
    if b = 0x27 then some ([], r)
    else if b = 0x0A then none
    else (singleQuoted r).map fun (x, y) => (b :: x, y)

/-- The code point written with so many hexadecimal digits. -/
def codePoint? (digits : Nat) (t : Text) : Option Text := do
  let ds ← (t.take digits).mapM Text.hexValue?
  if ds.length < digits then none
  let v := ds.foldl (fun v d => v * 16 + d) 0
  if h : v.isValidChar then return String.utf8EncodeChar (Char.ofNatAux v h) else none

/-- What an escape stands for, given the text after the backslash, and the length of the escape. -/
def escape? : Text → Option (Text × Nat)
  | [] => none
  | b :: r =>
    let simple : List (UInt8 × Text) :=
      [(0x30, [0x00]), (0x61, [0x07]), (0x62, [0x08]), (0x74, [0x09]), (0x09, [0x09]), (0x6E, [0x0A]),
        (0x76, [0x0B]), (0x66, [0x0C]), (0x72, [0x0D]), (0x65, [0x1B]), (0x20, [0x20]),
        (0x22, [0x22]), (0x27, [0x27]), (0x2F, [0x2F]), (0x5C, [0x5C]), (0x4E, [0xC2, 0x85]),
        (0x5F, [0xC2, 0xA0]), (0x4C, [0xE2, 0x80, 0xA8]), (0x50, [0xE2, 0x80, 0xA9])]
    match simple.lookup b with
    | some t => some (t, 1)
    | none =>
      if b = 0x78 then (codePoint? 2 r).map (·, 3)
      else if b = 0x75 then (codePoint? 4 r).map (·, 5)
      else if b = 0x55 then (codePoint? 8 r).map (·, 9)
      else none

/-- The rest of a text in double quotes, of which `skip` characters are read already, and what
follows. -/
def doubleQuoted : Nat → Text → Option (Text × Text)
  | _, [] => none
  | skip + 1, _ :: r => doubleQuoted skip r
  | 0, b :: r =>
    if b = 0x22 then some ([], r)
    else if b = 0x0A then none
    else if b = 0x5C then do
      let (x, n) ← escape? r
      let (y, z) ← doubleQuoted n r
      return (x ++ y, z)
    else (doubleQuoted 0 r).map fun (x, y) => (b :: x, y)

/-- The scalar that starts here, and what follows. -/
def scalar? (inFlow : Bool) : Text → Option (Scalar × Text)
  | [] => none
  | b :: r =>
    if b = 0x22 then (doubleQuoted 0 r).map fun (x, y) => (⟨x, true⟩, y)
    else if b = 0x27 then (singleQuoted r).map fun (x, y) => (⟨x, true⟩, y)
    else if startsPlain inFlow (b :: r) then
      let (x, y) := plainRun inFlow false (b :: r)
      some (⟨Text.dropEndWhile Text.isIndent x, false⟩, y)
    else none

/-- The items of at most `n` in brackets, the opening one being read, and what follows. -/
def flowItems : Nat → Text → Option (List Scalar × Text)
  | 0, _ => none
  | n + 1, t =>
    let t := (nextToken true false 0 t).2
    match t with
    | 0x5D :: r => some ([], r)
    | _ => do
      let (s, r) ← scalar? true t
      match (nextToken true false 0 r).2 with
      | 0x2C :: r => (flowItems n r).map fun (ss, r) => (s :: ss, r)
      | 0x5D :: r => return ([s], r)
      | _ => none

/-- An item after a dash starts here. -/
def isItem : Text → Bool
  | 0x2D :: r => atGap r
  | _ => false

/-- The items of at most `n` after dashes in a column, and what follows with its column. -/
def dashItems : Nat → Nat → Nat × Text → Option (List Scalar × Nat × Text)
  | 0, _, _ => none
  | n + 1, indent, (column, t) =>
    if column = indent && isItem t && !atEnd column t then do
      let r := (t.drop 1).dropWhile Text.isIndent
      let (s, r) ← match endLine? r with
        | some _ => some (Scalar.absent, r)
        | none => scalar? false r
      let next := nextToken false false 0 (← endLine? r)
      let (ss, next) ← dashItems n indent next
      return (s :: ss, next)
    else some ([], column, t)

/-- The value that starts here on this line, and what follows with its column. -/
def lineValue? (t : Text) : Option (Value × Nat × Text) := do
  let (v, r) ← match t with
    | 0x5B :: r => (flowItems (r.length + 1) r).map fun (ss, r) => (Value.list ss, r)
    | _ => (scalar? false t).map fun (s, r) => (Value.scalar s, r)
  return (v, nextToken false false 0 (← endLine? r))

/-- The value after a key in the column `indent`, and what follows with its column. -/
def value? (indent : Nat) (t : Text) : Option (Value × Nat × Text) :=
  match endLine? t with
  | none => lineValue? (t.dropWhile Text.isIndent)
  | some r =>
    let (column, t) := nextToken false false 0 r
    if indent ≤ column && isItem t && !atEnd column t then
      (dashItems (t.length + 1) column (column, t)).map fun (ss, next) => (.list ss, next)
    else if indent < column && !t.isEmpty then lineValue? t
    else some (.scalar .absent, column, t)

/-- At most `n` keys in the column `indent`, with their values. -/
def entries : Nat → Nat → Nat × Text → Option (List (Scalar × Value))
  | 0, _, _ => none
  | n + 1, indent, (column, t) =>
    if atEnd column t then some []
    else if column ≠ indent || isItem t then none
    else do
      let (key, r) ← scalar? false t
      match r.dropWhile Text.isIndent with
      | 0x3A :: r =>
        if !atGap r then none
        let (v, next) ← value? indent r
        return (key, v) :: (← entries n indent next)
      | _ => none

/-- The value after a key in braces, and what follows. -/
def flowValue? (t : Text) : Option (Value × Text) :=
  match (nextToken true false 0 t).2 with
  | 0x5B :: r => (flowItems (r.length + 1) r).map fun (ss, r) => (.list ss, r)
  | t =>
    if t.head?.any fun b => b = 0x2C || b = 0x7D then some (.scalar .absent, t)
    else (scalar? true t).map fun (s, r) => (.scalar s, r)

/-- At most `n` keys in braces with their values, the opening brace being read, and what follows. -/
def flowEntries : Nat → Text → Option (List (Scalar × Value) × Text)
  | 0, _ => none
  | n + 1, t =>
    match (nextToken true false 0 t).2 with
    | 0x7D :: r => some ([], r)
    | t => do
      let (key, r) ← scalar? true t
      let (v, r) ← match (nextToken true false 0 r).2 with
        | 0x3A :: r => if atGap r then flowValue? r else none
        | r => some (.scalar .absent, r)
      match (nextToken true false 0 r).2 with
      | 0x2C :: r => (flowEntries n r).map fun (es, r) => ((key, v) :: es, r)
      | 0x7D :: r => return ([(key, v)], r)
      | _ => none

/-- Nothing but space and comments follows in the document. -/
def isLast (t : Text) : Bool :=
  match endLine? t with
  | some r =>
    let (column, t) := nextToken false false 0 r
    atEnd column t
  | none => false

/-- The document has no value at all. -/
def isNullDocument (t : Text) : Bool :=
  (scalar? false t).any fun (s, r) => s.isNull && isLast r

/-- The keys and values that start in a column. -/
def document? (column : Nat) (t : Text) : Option (List (Scalar × Value)) :=
  if isNullDocument t then some []
  else match t with
    | 0x7B :: r =>
      (flowEntries (r.length + 1) r).bind fun (es, r) => if isLast r then some es else none
    | _ => entries (t.length + 1) column (column, t)

/-- The keys and values of a document, in order. -/
def parse? (src : Text) : Option (List (Scalar × Value)) :=
  let src := (Text.strip? [0xEF, 0xBB, 0xBF] src).getD src
  if Text.isValid src && (Text.runes src).all isAllowed then
    let (column, t) := nextToken false false 0 (unifyBreaks src)
    let (column, t) :=
      if column = 0 && isMarker "---" t then nextToken true false 3 (t.drop 3) else (column, t)
    document? column t
  else none

end Atmark.Yaml
