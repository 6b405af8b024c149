import Atmark.Text.Quoted
import Atmark.Markdown.Entity

/-!
Emphasis. A text is cut into items: markup that is final, brackets that may still start a link, and runs
of delimiters that may still become emphasis. `join` matches the runs: one that can close looks back for
the nearest one that can open with the same character, and what stands between the two is enclosed. Runs
without a partner are written as they are.
-/
namespace Atmark.Markdown

/-- A part of a text as markup and without any, as the text that stands for an image. -/
structure Span where
  html : Text
  plain : Text

namespace Span

/-- Two parts, one after the other. -/
def append (a b : Span) : Span := ⟨a.html ++ b.html, a.plain ++ b.plain⟩

/-- Nothing. -/
def empty : Span := ⟨[], []⟩

/-- A part that is the same as markup and without any. -/
def same (t : Text) : Span := ⟨t, t⟩

/-- Markup around a part. -/
def enclose (s : Span) (before after : Text) : Span := ⟨before ++ s.html ++ after, s.plain⟩

end Span

/-- A run of one character that may start or end emphasis. -/
structure Run where
  char : UInt8
  /-- Its length when it was read. -/
  size : Nat
  /-- How much of it is not used yet. -/
  left : Nat
  opens : Bool
  closes : Bool

/-- A part of a text. -/
inductive Item where
  | markup (s : Span)
  | link (s : Span)
  | run (r : Run)
  /-- A bracket that may start a link or an image, and the text after it. -/
  | bracket (image : Bool) (after : Text)

namespace Item

/-- What is written for an item that got no partner. -/
def span : Item → Span
  | .markup s => s
  | .link s => s
  | .run r => .same (List.replicate r.left r.char)
  | .bracket image _ => .same (utf8 (if image then "![" else "["))

/-- The item is a link. -/
def isLink : Item → Bool
  | .link _ => true
  | _ => false

/-- The item is a bracket. -/
def isBracket : Item → Bool
  | .bracket .. => true
  | _ => false

end Item

/-- A run after one byte and before another. An underscore inside a word is no delimiter. -/
def Run.between (char : UInt8) (size : Nat) (before after : Option UInt8) : Run :=
  let blank (b : Option UInt8) : Bool := b.all isSpace
  let mark (b : Option UInt8) : Bool := b.any isMark
  let atStart := !blank after && (!mark after || blank before || mark before)
  let atEnd := !blank before && (!mark before || blank after || mark after)
  { char, size, left := size
    opens := atStart && (char != 0x5F || !atEnd || mark before)
    closes := atEnd && (char != 0x5F || !atStart || mark after) }

/-- How many characters of an opening and a closing run belong together; none if the two runs cannot
be partners. -/
def Run.consumed (opening closing : Run) : Nat :=
  if opening.char != closing.char || !opening.opens then 0
  else if (opening.closes || closing.opens) && (opening.size + closing.size) % 3 = 0 &&
      closing.size % 3 != 0 then 0
  else if 2 ≤ opening.left && 2 ≤ closing.left then 2
  else 1

/-- The nearest partner of a closing run among the items before it, latest first: what stands between,
in order, the partner, and the items before it. -/
def partner? (closing : Run) : List Item → Option (Span × Run × List Item)
  | [] => none
  | item :: items =>
    let goOn := (partner? closing items).map fun (s, p, rest) => (s.append item.span, p, rest)
    match item with
    | .run r => if 0 < r.consumed closing then some (.empty, r, items) else goOn
    | _ => goOn

/-- The tag for so many characters of a run. -/
def tagOf (char : UInt8) (n : Nat) : Text :=
  utf8 (if char = 0x7E then "del" else if n = 2 then "strong" else "em")

/-- The items, latest first, after a run that can close. -/
def close (items : List Item) : Nat → Run → List Item
  | 0, r => .run r :: items
  | n + 1, r =>
    if r.left = 0 then items
    else match partner? r items with
      | none => .run r :: items
      | some (inner, p, before) =>
        let k := p.consumed r
        let tag := tagOf r.char k
        let html := inner.enclose (utf8 "<" ++ tag ++ utf8 ">") (utf8 "</" ++ tag ++ utf8 ">")
        let before := if p.left = k then before else .run { p with left := p.left - k } :: before
        close (.markup html :: before) n { r with left := r.left - k }

/-- The items, latest first, after one more. -/
def push (items : List Item) : Item → List Item
  | .run r => if r.closes then close items r.size r else .run r :: items
  | item => item :: items

/-- The text that items in order make. -/
def join (items : List Item) : Span :=
  (items.foldl push []).foldl (fun s item => item.span.append s) .empty

end Atmark.Markdown
