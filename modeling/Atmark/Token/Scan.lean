import Atmark.Error
import Atmark.Text.Letter
import Atmark.Text.Trim

/-!
The flat scan of a source: white space, delimiters and leaf tokens from left to right, with the place
of each. Every lexeme takes a beginning of what is left, so no byte is lost or read twice. The scan
ends at the end of the source or at the first bytes that start no token.
-/
namespace Atmark

/-- A place in a source: line and column from one, and a byte index. -/
structure Cursor where
  line : Nat
  column : Nat
  index : Nat
  deriving DecidableEq, Repr

namespace Cursor

/-- The place after one code point, or after one stray byte. -/
def step (c : Cursor) (p : Text.Piece) : Cursor :=
  if p.rune = '\n' then ⟨c.line + 1, 1, c.index + p.bytes.length⟩
  else ⟨c.line, c.column + 1, c.index + p.bytes.length⟩

/-- The place after a text. -/
def advance (c : Cursor) (t : Text) : Cursor := (Text.pieces t).foldl step c

/-- The position of the `n` bytes that start here. -/
def position (c : Cursor) (n : Nat) : Position := ⟨c.line, c.column, c.index, c.index + n - 1⟩

end Cursor

/-- What kind of leaf token starts at a place. -/
inductive Shape where
  | ident
  | literal (kind : LiteralKind)
  | punct (char : Char)
  deriving DecidableEq, Repr

namespace Shape

/-- White space between tokens. -/
def isSpace (b : UInt8) : Bool := Text.isIndent b || Text.isLineBreak b

/-- Bytes after an opening quote, up to and including the closing one. A backslash hides the byte
after it where the quotes allow escapes. -/
def quotedTail (q : UInt8) (escapes : Bool) : Text → Option Nat
  | [] => none
  | b :: r =>
    if b = q then some 1
    else if escapes && b = 0x5C then
      match r with
      | [] => none
      | _ :: r' => (quotedTail q escapes r').map (· + 2)
    else (quotedTail q escapes r).map (· + 1)

/-- Length of a character literal with an escape, read from the `i`-th byte after its quote. The
closing quote is looked for on the same line, among the next ten bytes. -/
def escapedRune (i : Nat) : Text → Option Nat
  | [] => none
  | b :: r =>
    if i > 10 then none
    else if b = 0x27 && i > 1 then some (i + 2)
    else if b = 0x0A then none
    else escapedRune (i + 1) r

/-- Length of the character literal whose opening quote stands before the text, if one is there. -/
def runeLength? : Text → Option Nat
  | [] => none
  | b :: r =>
    if b = 0x5C then escapedRune 1 r
    else
      let p := Text.firstPiece b r
      if b = 0x27 || b = 0x0A then none
      else match (b :: r)[p.bytes.length]? with
        | some 0x27 => some (p.bytes.length + 2)
        | _ => none

/-- A byte of a number: letters are allowed, so that a bad number is one token. -/
def isNumberByte (b : UInt8) : Bool :=
  b = 0x5F || (0x30 ≤ b && b ≤ 0x39) || (0x61 ≤ b && b ≤ 0x7A) || (0x41 ≤ b && b ≤ 0x5A)

/-- Length of a run of number bytes, and whether it has a signed exponent; `exponent` says that the
byte before the run is an exponent mark, so that a sign belongs to the run. -/
def numberRun (hex exponent : Bool) : Text → Nat × Bool
  | [] => (0, false)
  | b :: r =>
    if isNumberByte b then
      let (n, signed) := numberRun hex (!hex && (b = 0x65 || b = 0x45)) r
      (n + 1, signed)
    else if exponent && (b = 0x2B || b = 0x2D) then ((numberRun hex false r).1 + 1, true)
    else (0, false)

/-- A hexadecimal number starts here. -/
def startsHex : Text → Bool
  | a :: b :: _ => a = 0x30 && (b = 0x78 || b = 0x58)
  | _ => false

/-- Length of the number at the head of a text, and its kind. -/
def number (t : Text) : Nat × LiteralKind :=
  let (n, float) := numberRun (startsHex t) false t
  match t.drop n with
  | 0x2E :: d :: r =>
    if 0x30 ≤ d && d ≤ 0x39 then (n + 1 + (numberRun (startsHex t) false (d :: r)).1, .float)
    else (n, if float then .float else .int)
  | _ => (n, if float then .float else .int)

/-- Length of the identifier at the head of a text. -/
def wordLength (t : Text) : Nat :=
  (Text.joinPieces ((Text.pieces t).takeWhile (Text.isWordChar ·.rune))).length

/-- The mark that may open a source and stand nowhere else. -/
def byteOrderMark : Char := Char.ofNat 0xFEFF

/-- The identifier or punctuation character at the head of `b :: r`. -/
def wordOrPunct (b : UInt8) (r : Text) : Except (Nat × Fault) (Shape × Nat) :=
  match Text.firstPiece b r with
  | ⟨none, _⟩ => .error (1, .invalidEncoding)
  | ⟨some c, bytes⟩ =>
    if c = byteOrderMark then .error (bytes.length, .innerByteOrderMark)
    else if c = '_' || Text.isLetter c then .ok (.ident, wordLength (b :: r))
    else .ok (.punct c, bytes.length)

/-- The leaf token at the head of `b :: r` and its length, or how many bytes are at fault. -/
def ofText (b : UInt8) (r : Text) : Except (Nat × Fault) (Shape × Nat) :=
  if b = 0x22 then
    match quotedTail 0x22 true r with
    | some n => .ok (.literal .string, n + 1)
    | none => .error (1, .openString)
  else if b = 0x60 then
    match quotedTail 0x60 false r with
    | some n => .ok (.literal .rawString, n + 1)
    | none => .error (1, .openRawString)
  else if b = 0x27 then
    match runeLength? r with
    | some n => .ok (.literal .rune, n)
    | none => wordOrPunct b r
  else if 0x30 ≤ b && b ≤ 0x39 then
    .ok (.literal (number (b :: r)).2, (number (b :: r)).1)
  else wordOrPunct b r

/-- The leaf token with its place, the white space before it and its spelling. -/
def token (s : Shape) (pos : Position) (space raw : Text) : Token :=
  match s with
  | .ident => .ident ⟨some pos, space, raw⟩
  | .literal k => .literal ⟨some pos, space, k, raw⟩
  | .punct c => .punct ⟨some pos, space, c⟩

end Shape

/-- An element of the flat scan, with the white space before it. -/
inductive Lexeme where
  | opening (pos : Position) (space : Text) (d : Delimiter)
  | closing (pos : Position) (space : Text) (c : UInt8)
  | leaf (t : Token)

/-- How a scan ends: with the last white space, or at a fault. -/
inductive Ending where
  | blank (space : Text)
  | broken (pos : Position) (cause : Fault)

namespace Lexeme

/-- The delimiter opened by a byte. -/
def opened? (b : UInt8) : Option Delimiter :=
  if b = 0x28 then some .parenthesis
  else if b = 0x5B then some .bracket
  else if b = 0x7B then some .brace
  else none

/-- The byte closes a group. -/
def isCloser (b : UInt8) : Bool := b = 0x29 || b = 0x5D || b = 0x7D

/-- The lexemes of a text that starts at a place. Each takes at least one byte, so as many steps as
bytes are enough. -/
def scanFrom : Nat → Cursor → Text → List Lexeme × Ending
  | 0, _, t => ([], .blank t)
  | n + 1, c, t =>
    let space := t.takeWhile Shape.isSpace
    let c := c.advance space
    match t.dropWhile Shape.isSpace with
    | [] => ([], .blank space)
    | b :: r =>
      match opened? b with
      | some d =>
        let (ls, e) := scanFrom n (c.advance [b]) r
        (.opening (c.position 1) space d :: ls, e)
      | none =>
        if isCloser b then
          let (ls, e) := scanFrom n (c.advance [b]) r
          (.closing (c.position 1) space b :: ls, e)
        else
          match Shape.ofText b r with
          | .error (len, cause) => ([], .broken (c.position len) cause)
          | .ok (shape, len) =>
            let raw := (b :: r).take len
            let (ls, e) := scanFrom n (c.advance raw) ((b :: r).drop len)
            (.leaf (shape.token (c.position len) space raw) :: ls, e)

/-- The bytes of the byte order mark, which may open a source. -/
def markBytes : Text := String.utf8EncodeChar Shape.byteOrderMark

/-- The source without the byte order mark that may open it. -/
def unmarked (src : Text) : Text := (Text.strip? markBytes src).getD src

/-- The lexemes of a source. Columns count from the end of the byte order mark. -/
def scan (src : Text) : List Lexeme × Ending :=
  let body := unmarked src
  scanFrom (body.length + 1) ⟨1, 1, src.length - body.length⟩ body

end Lexeme
end Atmark
