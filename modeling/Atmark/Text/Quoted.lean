import Atmark.Text.Basic
import Atmark.Text.Printable

/-!
Quoted texts. `quote` writes any byte text between double quotes on one line: printable characters
stand for themselves and all else is an escape, stray bytes included. `unquote?` reads a double
quoted or a raw text back; it refuses an unknown escape, a line break and a bare quote.
-/
namespace Atmark.Text

/-- A hexadecimal digit in lower case. -/
def hexDigit (n : Nat) : UInt8 := UInt8.ofNat (if n < 10 then 0x30 + n else 0x57 + n)

/-- The last `width` hexadecimal digits of a number. -/
def hex : Nat → Nat → Text
  | 0, _ => []
  | width + 1, n => hex width (n / 16) ++ [hexDigit (n % 16)]

/-- Letters of the escapes that stand for one control character. -/
def shortEscapes : List (UInt8 × UInt8) :=
  [(0x07, 0x61), (0x08, 0x62), (0x0C, 0x66), (0x0A, 0x6E), (0x0D, 0x72), (0x09, 0x74), (0x0B, 0x76)]

/-- A code point as it stands between quotes of the given kind. -/
def escapeChar (mark c : Char) : Text :=
  if c = mark || c = '\\' then 0x5C :: String.utf8EncodeChar c
  else if isPrintable c then String.utf8EncodeChar c
  else match shortEscapes.find? (·.1.toNat == c.toNat) with
    | some (_, e) => [0x5C, e]
    | none =>
      if c.toNat < 0x20 || c.toNat = 0x7F then 0x5C :: 0x78 :: hex 2 c.toNat
      else if c.toNat < 0x10000 then 0x5C :: 0x75 :: hex 4 c.toNat
      else 0x5C :: 0x55 :: hex 8 c.toNat

/-- A piece as it stands in a quoted text; a stray byte is written by its number. -/
def escapePiece (p : Piece) : Text :=
  match p.char with
  | some c => escapeChar '\x22' c
  | none => p.bytes.flatMap fun b => 0x5C :: 0x78 :: hex 2 b.toNat

/-- The text between double quotes, on one line and in printable characters. -/
def quote (t : Text) : Text := 0x22 :: (pieces t).flatMap escapePiece ++ [0x22]

/-- The code point between single quotes. -/
def quoteChar (c : Char) : Text := 0x27 :: escapeChar '\x27' c ++ [0x27]

/-- The value of a hexadecimal digit. -/
def hexValue? (b : UInt8) : Option Nat :=
  let n := b.toNat
  if 0x30 ≤ n && n ≤ 0x39 then some (n - 0x30)
  else if 0x61 ≤ n && n ≤ 0x66 then some (n - 0x57)
  else if 0x41 ≤ n && n ≤ 0x46 then some (n - 0x37)
  else none

/-- The value of hexadecimal digits after the value `acc`. -/
def hexNumber? : Nat → Text → Option Nat
  | acc, [] => some acc
  | acc, b :: r => match hexValue? b with
    | some d => hexNumber? (acc * 16 + d) r
    | none => none

/-- The value of an octal digit. -/
def octalValue? (b : UInt8) : Option Nat :=
  if 0x30 ≤ b.toNat && b.toNat ≤ 0x37 then some (b.toNat - 0x30) else none

/-- The encoding of a scalar value. -/
def encode? (v : Nat) : Option Text :=
  if h : v.isValidChar then some (String.utf8EncodeChar (Char.ofNatAux v h)) else none

/-- What the escape after a backslash stands for, and how many bytes it has. -/
def unescape? : Text → Option (Text × Nat)
  | [] => none
  | e :: r =>
    match shortEscapes.find? (·.2 == e) with
    | some (b, _) => some ([b], 1)
    | none =>
      if e = 0x5C || e = 0x22 then some ([e], 1)
      else if e = 0x78 then
        if r.length < 2 then none
        else (hexNumber? 0 (r.take 2)).map fun v => ([UInt8.ofNat v], 3)
      else if e = 0x75 then
        if r.length < 4 then none
        else (hexNumber? 0 (r.take 4)).bind encode? |>.map (·, 5)
      else if e = 0x55 then
        if r.length < 8 then none
        else (hexNumber? 0 (r.take 8)).bind encode? |>.map (·, 9)
      else match octalValue? e, r with
        | some a, x :: y :: _ =>
          match octalValue? x, octalValue? y with
          | some b, some c =>
            let v := (a * 8 + b) * 8 + c
            if v > 255 then none else some ([UInt8.ofNat v], 3)
          | _, _ => none
        | _, _ => none

/-- Reads what follows the opening double quote, after `skip` bytes that are already read. The
closing quote must be the last byte; a stray byte reads as the replacement character. -/
def unquoteFrom : Nat → Text → Option Text
  | _, [] => none
  | skip + 1, _ :: r => unquoteFrom skip r
  | 0, b :: r =>
    if b = 0x22 then if r.isEmpty then some [] else none
    else if b = 0x0A then none
    else if b = 0x5C then
      match unescape? r with
      | some (out, n) => (unquoteFrom n r).map (out ++ ·)
      | none => none
    else
      let p := firstPiece b r
      (unquoteFrom (p.bytes.length - 1) r).map (String.utf8EncodeChar p.rune ++ ·)

/-- The text that a double quoted or a raw text stands for; a raw text drops carriage returns. -/
def unquote? : Text → Option Text
  | 0x22 :: r => unquoteFrom 0 r
  | 0x60 :: r =>
    match r.reverse with
    | 0x60 :: inner =>
      if inner.contains 0x60 then none else some (inner.reverse.filter (· != 0x0D))
    | _ => none
  | _ => none

end Atmark.Text
