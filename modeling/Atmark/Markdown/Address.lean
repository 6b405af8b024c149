import Atmark.Markdown.Entity
import Atmark.Text.Trim

/-!
Addresses: how they are written in a link, and where one stands in a text without any mark.
-/
namespace Atmark.Markdown

/-- A byte that stands for itself in an address. -/
def isAddressByte (b : UInt8) : Bool :=
  isAlpha b || isDecimal b || (utf8 "-_.!~*'();/?:@&=+$,#").contains b

/-- An address with the bytes that may not stand in it written in hexadecimal; an escape stays. -/
def escapeAddress : Text → Text
  | [] => []
  | 0x25 :: a :: b :: r =>
    if (Text.hexValue? a).isSome && (Text.hexValue? b).isSome then 0x25 :: escapeAddress (a :: b :: r)
    else utf8 "%25" ++ escapeAddress (a :: b :: r)
  | b :: r =>
    (if isAddressByte b then [b] else [0x25] ++ (Text.hex 2 b.toNat).map upper) ++ escapeAddress r
where
  /-- Hexadecimal digits in capitals. -/
  upper (b : UInt8) : UInt8 := if 0x61 ≤ b && b ≤ 0x66 then b - 0x20 else b

/-- A small letter of the Latin alphabet. -/
def isSmall (b : UInt8) : Bool := 0x61 ≤ b && b ≤ 0x7A

/-- The length of the longest host at the beginning of a text, `n` bytes of which are read; it ends with
a dot and small letters. -/
def hostLength (n best : Nat) : Text → Nat
  | [] => best
  | b :: r =>
    let best :=
      if 0 < n && b = 0x2E && r.head?.any isSmall then n + 1 + (r.takeWhile isSmall).length else best
    if n < 256 && (isAlpha b || isDecimal b || (utf8 "-@:%._+~#=").contains b) then
      hostLength (n + 1) best r
    else best

/-- The length of what follows a host: a path, a query or a fragment. -/
def pathLength (t : Text) : Nat :=
  let inPath (b : UInt8) : Bool :=
    isAlpha b || isDecimal b || (utf8 "-@:%_+.~#$!?&/=();,'\">^\x7b\x7d[]\x60").contains b
  match t with
  | b :: r => if b = 0x2F || b = 0x23 || b = 0x3F then 1 + (r.takeWhile inPath).length else 0
  | [] => 0

/-- The length of a colon and a number after a host. -/
def numberLength : Text → Nat
  | 0x3A :: r =>
    let digits := r.takeWhile isDecimal
    if digits.isEmpty then 0 else 1 + digits.length
  | _ => 0

/-- The length of the address after a beginning of so many bytes, which may have a number after its host. -/
def addressLength? (start : Nat) (numbered : Bool) (t : Text) : Option Nat :=
  let host := hostLength 0 0 (t.drop start)
  let number := if numbered then numberLength (t.drop (start + host)) else 0
  if host = 0 then none else some (start + host + number + pathLength (t.drop (start + host + number)))

/-- An address without what belongs to the sentence around it: a full stop, a parenthesis that is not
opened in it, an entity. -/
def trimAddress (t : Text) : Text :=
  match t.reverse with
  | 0x2E :: r => r.reverse
  | 0x29 :: _ => t.take (t.length - (t.count 0x29 - t.count 0x28))
  | 0x3B :: r =>
    let name := r.takeWhile fun b => isAlpha b || isDecimal b
    match r.drop name.length with
    | 0x26 :: before => if name.isEmpty then t else before.reverse
    | _ => t
  | _ => t

/-- An address without the marks of punctuation at its end. -/
def dropMarks : Text → Text
  | [] => []
  | b :: r => b :: Text.dropEndWhile (utf8 "?!.,:*_~").contains r

/-- A web address at the beginning of a text, and what it links to. -/
def webAddress? (t : Text) : Option (Text × Text) :=
  let found (start : Text) (numbered : Bool) : Option Text :=
    if Text.startsWith start t then
      (addressLength? start.length numbered t).map fun n => dropMarks (trimAddress (t.take n))
    else none
  match ["http://", "https://", "ftp://"].findSome? fun s => found (utf8 s) true with
  | some a => some (a, a)
  | none => (found (utf8 "www.") false).map fun a => (a, utf8 "http://" ++ a)

/-- The length of a label of a domain: letters and digits, with dashes inside. -/
def labelLength (t : Text) : Nat :=
  let inLabel := (t.takeWhile fun b => isAlpha b || isDecimal b || b = 0x2D).take 63
  if inLabel.head? = some 0x2D then 0 else (Text.dropEndWhile (· == 0x2D) inLabel).length

/-- The length of at most `n` labels with dots between them. -/
def domainLength : Nat → Text → Nat
  | 0, _ => 0
  | n + 1, t =>
    let first := labelLength t
    match t.drop first with
    | 0x2E :: r =>
      let more := domainLength n r
      if first = 0 || more = 0 then first else first + 1 + more
    | _ => first

/-- A mail address at the beginning of a text, and what it links to. -/
def mailAddress? (t : Text) : Option (Text × Text) :=
  let user := t.takeWhile fun b =>
    isAlpha b || isDecimal b || (utf8 ".!#$%&'*+/=?^_\x60\x7b|\x7d~-").contains b
  match t.drop user.length with
  | 0x40 :: r =>
    let domain := r.take (domainLength (r.length + 1) r)
    let after := (r.drop domain.length).head?
    if user.isEmpty || user.head?.any isMark || !domain.contains 0x2E || after = some 0x2D ||
        after = some 0x5F then none
    else
      let address := user ++ [0x40] ++ domain
      some (address, utf8 "mailto:" ++ address)
  | _ => none

/-- An address that stands in a text without any mark, and what it links to. -/
def bareAddress? (t : Text) : Option (Text × Text) := (webAddress? t).or (mailAddress? t)

end Atmark.Markdown
