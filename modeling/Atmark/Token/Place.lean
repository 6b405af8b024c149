import Atmark.Token.Stream

/-!
A place in a stream is reached by going forward and back. It never lies after the end, but it can lie
before the beginning: nothing can be read there, and going forward from there is counted from there.
-/
namespace Atmark

/-- A stream at its beginning and how far from there the place is. -/
structure Place where
  start : Stream
  /-- A 64-bit number: going too far around it comes back from the other side. -/
  offset : Int64 := 0

namespace Place

/-- The place where a stream stands. -/
def ofStream (s : Stream) : Place := ⟨s.back s.offset, Int64.ofNat s.offset⟩

/-- The number of tokens of the stream. -/
def size (p : Place) : Int64 := Int64.ofNat p.start.rest.length

/-- The place so many tokens further on, or at the end. -/
def move (p : Place) (n : Int64) : Place :=
  { p with offset := if p.offset + n > p.size then p.size else p.offset + n }

/-- The stream that stands at the place, if that is not before its beginning. -/
def stream? (p : Place) : Option Stream :=
  if p.offset < 0 then none else some (p.start.skip p.offset.toInt.toNat)

/-- The token after the next `n`, if what stands there can be read; there may be none. Nothing is asked
of a place further back. -/
def peekNth (p : Place) (n : Int64) : Option (Option Token) :=
  if n < 0 then some none else ({ p with offset := p.offset + n } : Place).stream?.map Stream.peek

/-- The place is at the end. -/
def isDone (p : Place) : Bool := p.offset ≥ p.size

end Place
end Atmark
