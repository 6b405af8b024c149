import Atmark.Token.Basic

/-!
A stream is a cursor over the tokens of a file or of a group. Reading past the end gives nothing and
moves nothing.
-/
namespace Atmark

/-- The tokens already read, latest first, those still to be read, and where the stream ends. -/
structure Stream where
  past : List Token
  rest : List Token
  stop : Option Position

namespace Stream

/-- A stream over the tokens of a file; it ends at its last token. -/
def ofTokens (ts : List Token) : Stream :=
  ⟨[], ts, match ts.getLast? with
    | some t => t.pos
    | none => some .origin⟩

/-- A stream over the tokens of a group; it ends where the group stands. -/
def ofGroup (f : Frame) (ts : List Token) : Stream := ⟨[], ts, f.pos⟩

/-- The number of tokens read. -/
def offset (s : Stream) : Nat := s.past.length

/-- The next token. -/
def peek (s : Stream) : Option Token := s.rest.head?

/-- The token after the next `n`. -/
def peekNth (s : Stream) (n : Nat) : Option Token := s.rest[n]?

/-- The stream after the next `n` tokens, or at its end. -/
def skip (s : Stream) : Nat → Stream
  | 0 => s
  | n + 1 => match s.rest with
    | [] => s
    | t :: ts => skip { s with past := t :: s.past, rest := ts } n

/-- The stream before the last `n` tokens read, or at its beginning. -/
def back (s : Stream) : Nat → Stream
  | 0 => s
  | n + 1 => match s.past with
    | [] => s
    | t :: ts => back { s with past := ts, rest := t :: s.rest } n

/-- Nothing is left to read. -/
def isDone (s : Stream) : Bool := s.rest.isEmpty

/-- The next token, if it is a group between the given delimiters. -/
def peekGroup (s : Stream) (d : Delimiter) : Option (Frame × List Token) :=
  match s.rest with
  | .group f ts :: _ => if f.delim = d then some (f, ts) else none
  | _ => none

/-- The next token, if it is an identifier. -/
def peekIdent (s : Stream) : Option Ident :=
  match s.rest with
  | .ident t :: _ => some t
  | _ => none

@[simp] theorem rest_skip (s : Stream) (n : Nat) : (s.skip n).rest = s.rest.drop n := by
  induction n generalizing s with
  | zero => simp [skip]
  | succ n ih =>
    unfold skip
    cases h : s.rest with
    | nil => simp [h]
    | cons t ts => simp [ih]

@[simp] theorem stop_skip (s : Stream) (n : Nat) : (s.skip n).stop = s.stop := by
  induction n generalizing s with
  | zero => simp [skip]
  | succ n ih =>
    unfold skip
    cases h : s.rest with
    | nil => simp
    | cons t ts => simp [ih]

end Stream

/-- The tokens begin with these characters, no white space before any of them. -/
def gluedMarks : List Char → List Token → Bool
  | [], _ => true
  | c :: cs, t :: ts => t.isPunct c && t.glued && gluedMarks cs ts
  | _ :: _, [] => false

/-- The tokens begin with these characters, no white space between them. -/
def startsWithMarks : List Char → List Token → Bool
  | [], _ => true
  | c :: cs, t :: ts => t.isPunct c && gluedMarks cs ts
  | _ :: _, [] => false

/-- The number of colons at the beginning, no white space before any of them. -/
def gluedColons : List Token → Nat
  | t :: ts => if t.isPunct ':' && t.glued then gluedColons ts + 1 else 0
  | [] => 0

/-- The number of adjacent colons that the tokens begin with. -/
def colons : List Token → Nat
  | t :: ts => if t.isPunct ':' then gluedColons ts + 1 else 0
  | [] => 0

end Atmark
