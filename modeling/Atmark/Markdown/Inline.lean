import Atmark.Markdown.Link
import Atmark.Markdown.Markup

/-!
Text inside Markdown blocks. It is read once, from left to right. A closing bracket looks back for the
last opening one: if a target or a defined label follows, or if what stands between is a defined label,
the two make a link or an image; otherwise both are characters like any other.
-/
namespace Atmark.Markdown

/-- The last bracket among items, latest first: the items after it, in order, what it opens, the text
after it, and the items before it. -/
def lastBracket? : List Item → Option (List Item × Bool × Text × List Item)
  | [] => none
  | .bracket image after :: items => some ([], image, after, items)
  | item :: items => (lastBracket? items).map fun (inner, rest) => (inner ++ [item], rest)

/-- The target of what stands in brackets, and what follows. A label of its own decides, if there is one;
an empty one stands for the text in the brackets. -/
def bracketTarget? (definitions : List Definition) (label rest : Text) : Option (Target × Text) :=
  let short := (lookUp definitions label).map (·, rest)
  match rest with
  | 0x28 :: r => (target? r).or short
  | 0x5B :: r =>
    match closure? 0x5B 0x5D r with
    | none => short
    | some (own, after) =>
      (lookUp definitions (if own.all isSpace then label else own)).map (·, after)
  | _ => short

/-- The items, latest first, after a closing bracket with `rest` after it, and what is left to read; or
the items without the opening bracket, if the two make no link. A link stands in no other link. -/
def closeBracket (definitions : List Definition) (items : List Item) (rest : Text) :
    Except (List Item) (List Item × Text) :=
  match lastBracket? items with
  | none => .error items
  | some (inner, image, after, before) =>
    let label := after.take (after.length - rest.length - 1)
    let found :=
      if !image && inner.any Item.isLink then none else bracketTarget? definitions label rest
    match found with
    | none => .error (inner.reverse ++ .markup (Item.bracket image after).span :: before)
    | some (target, rest) =>
      let item := if image then imaged target (join inner) else linked target (join inner)
      .ok (item :: before, rest)

/-- The items of a text, latest first, after those read before it and the byte before it, with at most
`n` steps. An address makes a link where the text is `fresh`, after a space, a mark that may set it off
or markup, unless a bracket is open. -/
def items (definitions : List Definition) :
    Nat → List Item → Bool → Option UInt8 → Text → List Item
  | 0, done, _, _, t => .markup (.same (escape t)) :: done
  | _, done, _, _, [] => done
  | n + 1, done, fresh, before, b :: r =>
    let read (rest : Text) : Text := (b :: r).take (r.length + 1 - rest.length)
    let goOn (done : List Item) (fresh : Bool) (rest : Text) : List Item :=
      items definitions n done fresh (read rest).getLast? rest
    let plain (html rest : Text) : List Item :=
      goOn (.markup ⟨html, escape (read rest)⟩ :: done) false rest
    let markup (s : Span) (rest : Text) : List Item := goOn (.markup s :: done) true rest
    let line (hard : Bool) (rest : Text) : List Item :=
      markup ⟨utf8 (if hard then "<br>\n" else "\n"), []⟩ rest
    let character : List Item :=
      if b = 0x5C then
        match r with
        | 0x0A :: rest => line true rest
        | c :: rest => if isMark c then plain (escape [c]) rest else plain [b] r
        | [] => plain [b] r
      else if b = 0x60 then
        let ticks := (b :: r).takeWhile (· == 0x60)
        let rest := (b :: r).drop ticks.length
        match codeEnd? ticks.length (rest.length + 1) rest with
        | some (code, rest) =>
          let code := escape (codeText code)
          markup ⟨utf8 "<code>" ++ code ++ utf8 "</code>", code⟩ rest
        | none => markup (.same ticks) rest
      else if b = 0x2A || b = 0x5F || b = 0x7E then
        let run := (b :: r).takeWhile (· == b)
        let rest := (b :: r).drop run.length
        if b = 0x7E && run.length < 2 then markup (.same run) rest
        else goOn (.run (.between b run.length before rest.head?) :: done) true rest
      else if b = 0x3C then
        match autolink? r with
        | some (address, shown, rest) => goOn (autolinked address shown :: done) true rest
        | none => match afterMarkup? r with
          | some rest => markup ⟨read rest, []⟩ rest
          | none => plain (escape [b]) r
      else if b = 0x26 then
        match entity? r with
        | some (t, rest) => plain (escape t) rest
        | none => plain (escape [b]) r
      else if b = 0x21 && r.head? = some 0x5B then
        goOn (.bracket true (r.drop 1) :: done) true (r.drop 1)
      else if b = 0x5B then goOn (.bracket false r :: done) true r
      else if b = 0x5D then
        match closeBracket definitions done r with
        | .ok (done, rest) => goOn done true rest
        | .error done => goOn (.markup (.same [b]) :: done) false r
      else if Text.isIndent b then
        let blank := (b :: r).takeWhile Text.isIndent
        match (b :: r).drop blank.length with
        | 0x0A :: rest => line (2 ≤ blank.length && (blank.drop (blank.length - 2)).all (· == 0x20)) rest
        | 0x5C :: 0x0A :: rest => line true rest
        | _ => goOn (.markup (.same [b]) :: done) (b = 0x20) r
      else if b = 0x0A then line false r
      else if b = 0x28 then markup (.same [b]) r
      else plain (escape [b]) r
    match if fresh && !done.any Item.isBracket then bareAddress? (b :: r) else none with
    | some (shown, address) =>
      goOn (autolinked address shown :: done) true ((b :: r).drop shown.length)
    | none => character

/-- The markup of a text. -/
def inline (definitions : List Definition) (t : Text) : Text :=
  (join (items definitions (t.length + 1) [] true none t).reverse).html

end Atmark.Markdown
