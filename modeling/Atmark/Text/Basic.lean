/-!
Texts are sequences of bytes: a template may hold bytes that encode no code point, and every
position counts bytes. `pieces` cuts a text into the code points it encodes; a byte that encodes
none stands alone, so nothing is lost (`pieces_bytes`).
-/
namespace Atmark

/-- A byte text, usually but not always UTF-8. -/
abbrev Text := List UInt8

/-- The bytes of a string constant. -/
def utf8 (s : String) : Text := s.toList.flatMap String.utf8EncodeChar

namespace Text

/-- A continuation byte of an encoded code point. -/
def isTail (b : UInt8) : Bool := b.toNat / 64 == 2

/-- The six bits carried by a continuation byte. -/
def tailBits (b : UInt8) : Nat := b.toNat % 64

/-- A code point of `n` bytes, if `v` is a scalar value that needs that many bytes. -/
def scalar? (least v n : Nat) : Option (Char × Nat) :=
  if h : v.isValidChar then if least ≤ v then some (Char.ofNatAux v h, n) else none else none

/-- The code point encoded at the head of a text and its number of bytes. -/
def decode? : Text → Option (Char × Nat)
  | [] => none
  | a :: r =>
    let lead := a.toNat
    if lead < 0x80 then scalar? 0 lead 1
    else if lead < 0xC0 then none
    else if lead < 0xE0 then match r with
      | b :: _ => if isTail b then scalar? 0x80 (lead % 32 * 64 + tailBits b) 2 else none
      | _ => none
    else if lead < 0xF0 then match r with
      | b :: c :: _ =>
        if isTail b && isTail c then
          scalar? 0x800 ((lead % 16 * 64 + tailBits b) * 64 + tailBits c) 3
        else none
      | _ => none
    else if lead < 0xF8 then match r with
      | b :: c :: d :: _ =>
        if isTail b && isTail c && isTail d then
          scalar? 0x10000 (((lead % 8 * 64 + tailBits b) * 64 + tailBits c) * 64 + tailBits d) 4
        else none
      | _ => none
    else none

/-- A code point with its bytes, or a byte that encodes none. -/
structure Piece where
  char : Option Char
  bytes : Text
  deriving DecidableEq, Repr

/-- What stands for a byte that encodes no code point. -/
def replacement : Char := Char.ofNat 0xFFFD

/-- The code point of a piece, the replacement character for a stray byte. -/
def Piece.rune (p : Piece) : Char := p.char.getD replacement

/-- The piece at the head of `b :: r`. -/
def firstPiece (b : UInt8) (r : Text) : Piece :=
  match decode? (b :: r) with
  | some (c, n) => ⟨some c, b :: r.take (n - 1)⟩
  | none => ⟨none, [b]⟩

/-- The pieces of a text whose first `skip` bytes belong to a piece already taken. -/
def piecesFrom : Nat → Text → List Piece
  | _, [] => []
  | skip + 1, _ :: r => piecesFrom skip r
  | 0, b :: r => firstPiece b r :: piecesFrom ((firstPiece b r).bytes.length - 1) r

/-- The code points of a text with their bytes. -/
def pieces (t : Text) : List Piece := piecesFrom 0 t

/-- The bytes of a list of pieces. -/
def joinPieces (ps : List Piece) : Text := ps.flatMap Piece.bytes

/-- The code points of a text, stray bytes read as the replacement character. -/
def runes (t : Text) : List Char := (pieces t).map Piece.rune

/-- The encoding of a list of code points. -/
def ofRunes (cs : List Char) : Text := cs.flatMap String.utf8EncodeChar

/-- Every byte belongs to an encoded code point. -/
def isValid (t : Text) : Bool := (pieces t).all (·.char.isSome)

theorem joinPieces_piecesFrom (skip : Nat) (t : Text) :
    joinPieces (piecesFrom skip t) = t.drop skip := by
  induction t generalizing skip with
  | nil => cases skip <;> simp [piecesFrom, joinPieces]
  | cons b r ih =>
    cases skip with
    | succ k => simpa [piecesFrom] using ih k
    | zero =>
      have h := ih ((firstPiece b r).bytes.length - 1)
      simp only [joinPieces] at h
      simp only [piecesFrom, joinPieces, List.flatMap_cons, h, List.drop_zero]
      unfold firstPiece
      split <;> simp
      rename_i n _
      rcases Nat.le_total (n - 1) r.length with hn | hn
      · simp [Nat.min_eq_left hn]
      · simp [List.take_of_length_le hn, Nat.min_eq_right hn]

/-- Cutting a text into code points loses nothing. -/
theorem pieces_bytes (t : Text) : joinPieces (pieces t) = t := by
  simp [pieces, joinPieces_piecesFrom]

/-- The texts between the occurrences of a byte, always at least one. -/
def splitOn (sep : UInt8) : Text → List Text
  | [] => [[]]
  | b :: r =>
    if b = sep then [] :: splitOn sep r
    else match splitOn sep r with
      | [] => [[b]]
      | t :: ts => (b :: t) :: ts

/-- The texts with a separator between neighbours. -/
def intercalate (sep : Text) : List Text → Text
  | [] => []
  | [t] => t
  | t :: u :: ts => t ++ sep ++ intercalate sep (u :: ts)

/-- The text after the beginning `p`, if it begins so. -/
def strip? : Text → Text → Option Text
  | [], t => some t
  | _ :: _, [] => none
  | a :: p, b :: t => if a = b then strip? p t else none

/-- The text begins with `p`. -/
def startsWith (p t : Text) : Bool := (strip? p t).isSome

/-- The text ends with `p`. -/
def endsWith (p t : Text) : Bool := startsWith p.reverse t.reverse

/-- The text holds `p` somewhere. -/
def holds (p : Text) : Text → Bool
  | [] => p.isEmpty
  | b :: r => startsWith p (b :: r) || holds p r

/-- The text before and after the first occurrence of a byte. -/
def cut? (sep : UInt8) : Text → Option (Text × Text)
  | [] => none
  | b :: r => if b = sep then some ([], r) else (cut? sep r).map fun (x, y) => (b :: x, y)

/-- Order of texts by their bytes. -/
def lt : Text → Text → Bool
  | _, [] => false
  | [], _ :: _ => true
  | a :: s, b :: t => a < b || (a = b && lt s t)

/-- Order of texts by their bytes, equality included. -/
def le (s t : Text) : Bool := !lt t s

/-- The texts in order of their bytes. -/
def sort (ts : List Text) : List Text := ts.mergeSort le

/-- The decimal digits of a number. -/
def ofNat (n : Nat) : Text := (Nat.toDigits 10 n).map fun c => UInt8.ofNat c.toNat

/-- The decimal digits of an integer, after a minus sign if it is negative. -/
def ofInt : Int → Text
  | .ofNat n => ofNat n
  | .negSucc n => 0x2D :: ofNat (n + 1)

end Text
end Atmark
