import Atmark.Markdown.Entity

/-!
Parts of a text that are kept as they are: code between backticks, tags and other markup, and addresses
between angle brackets.
-/
namespace Atmark.Markdown

/-- The text up to a run of exactly `n` backticks, and what follows. -/
def codeEnd? (n : Nat) : Nat → Text → Option (Text × Text)
  | 0, _ => none
  | fuel + 1, t =>
    let before := t.takeWhile (· != 0x60)
    let rest := t.dropWhile (· != 0x60)
    let ticks := rest.takeWhile (· == 0x60)
    if ticks.isEmpty then none
    else if ticks.length = n then some (before, rest.drop n)
    else (codeEnd? n fuel (rest.drop ticks.length)).map fun (x, y) => (before ++ ticks ++ x, y)

/-- The content of a code span: one line, without the space that only sets off a backtick. -/
def codeText (t : Text) : Text :=
  let t := t.map fun b => if b = 0x0A then 0x20 else b
  if 2 ≤ t.length && t.head? = some 0x20 && t.getLast? = some 0x20 && t.any (· != 0x20) then
    (t.drop 1).dropLast
  else t

/-- The text up to and with the first occurrence of an end, and what follows. -/
def through? (stop : Text) : Text → Option (Text × Text)
  | [] => none
  | b :: r =>
    match Text.strip? stop (b :: r) with
    | some rest => some (stop, rest)
    | none => (through? stop r).map fun (x, y) => (b :: x, y)

/-- The name of a tag at the beginning of a text, and what follows. -/
def tagName? (t : Text) : Option (Text × Text) :=
  let inName (b : UInt8) : Bool := isAlpha b || isDecimal b || b = 0x2D
  match t with
  | b :: _ => if isAlpha b then some (t.takeWhile inName, t.dropWhile inName) else none
  | [] => none

/-- The name of an attribute, and what follows. -/
def attrName? (t : Text) : Option (Text × Text) :=
  let starts (b : UInt8) : Bool := isAlpha b || b = 0x5F || b = 0x3A
  let inName (b : UInt8) : Bool := starts b || isDecimal b || b = 0x2E || b = 0x2D
  match t with
  | b :: _ => if starts b then some (t.takeWhile inName, t.dropWhile inName) else none
  | [] => none

/-- The text after the value of an attribute. -/
def afterValue? (t : Text) : Option Text :=
  match t with
  | [] => none
  | b :: r =>
    if b = 0x22 || b = 0x27 then
      match r.dropWhile (· != b) with
      | [] => none
      | _ :: rest => some rest
    else
      let plain (c : UInt8) : Bool := !isSpace c && !(utf8 "\"'=<>\x60").contains c
      if plain b then some (t.dropWhile plain) else none

/-- The text after the attributes and the end of an opening tag. -/
def afterAttrs? : Nat → Text → Option Text
  | 0, _ => none
  | fuel + 1, t =>
    let spaced := t.dropWhile isSpace
    match spaced with
    | 0x3E :: r => some r
    | 0x2F :: 0x3E :: r => some r
    | _ =>
      if spaced.length = t.length then none
      else match attrName? spaced with
        | none => none
        | some (_, r) => match r.dropWhile isSpace with
          | 0x3D :: v => (afterValue? (v.dropWhile isSpace)).bind (afterAttrs? fuel)
          | _ => afterAttrs? fuel r

/-- The text after an opening or a closing tag, given the text after its `<`. -/
def afterTag? (t : Text) : Option Text :=
  match t with
  | 0x2F :: r => do
    let (_, r) ← tagName? r
    match r.dropWhile isSpace with
    | 0x3E :: rest => some rest
    | _ => none
  | _ => do
    let (_, r) ← tagName? t
    afterAttrs? (r.length + 1) r

/-- The text after markup that is kept as it is, given the text after its `<`. -/
def afterMarkup? (t : Text) : Option Text :=
  match Text.strip? (utf8 "!--") t with
  | some r => (through? (utf8 "-->") r).map (·.2)
  | none => match Text.strip? (utf8 "![CDATA[") t with
    | some r => (through? (utf8 "]]>") r).map (·.2)
    | none => match t with
      | 0x21 :: b :: r => if isAlpha b then (through? (utf8 ">") r).map (·.2) else none
      | 0x3F :: r => (through? (utf8 "?>") r).map (·.2)
      | _ => afterTag? t

/-- An address between angle brackets, given the text after `<`: what it links to, its text, and what
follows. -/
def autolink? (t : Text) : Option (Text × Text × Text) := do
  let (address, rest) ← Text.cut? 0x3E t
  if address.any fun b => isSpace b || b = 0x3C then none
  let scheme := address.takeWhile fun b => isAlpha b || isDecimal b || b = 0x2B || b = 0x2E || b = 0x2D
  if (address.head?.any isAlpha) && 2 ≤ scheme.length && scheme.length ≤ 32 &&
      (address.drop scheme.length).head? = some 0x3A then
    some (address, address, rest)
  else
    let (user, host) ← Text.cut? 0x40 address
    if !user.isEmpty && host.contains 0x2E && host.all (fun b => isAlpha b || isDecimal b || b = 0x2D ||
        b = 0x2E) then
      some (utf8 "mailto:" ++ address, address, rest)
    else none

end Atmark.Markdown
