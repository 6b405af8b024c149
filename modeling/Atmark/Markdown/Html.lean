import Atmark.Markdown.Block
import Atmark.Markdown.Inline

/-!
Markdown as markup. The paragraphs of a tight list are written without tags of their own, and a paragraph
of which only definitions were read is not written at all.
-/
namespace Atmark.Markdown

/-- Markup between the tags of an element. -/
def element (tag : String) (inner : Text) : Text :=
  utf8 "<" ++ utf8 tag ++ utf8 ">" ++ inner ++ utf8 "</" ++ utf8 tag ++ utf8 ">"

/-- The attribute that aligns a cell. -/
def Alignment.attr : Alignment → Text
  | .unset => []
  | .left => utf8 " style=\"text-align:left\""
  | .center => utf8 " style=\"text-align:center\""
  | .right => utf8 " style=\"text-align:right\""

/-- A row of a table. The cells that are missing at its end are empty and not aligned. -/
def rowHtml (ds : List Definition) (tag : String) (columns : List Alignment) (row : List Text) : Text :=
  let cell (a : Alignment) (t : Text) : Text :=
    utf8 "<" ++ utf8 tag ++ a.attr ++ utf8 ">" ++ inline ds t ++ utf8 "</" ++ utf8 tag ++ utf8 ">\n"
  let missing := List.replicate (columns.length - row.length) (cell .unset [])
  utf8 "<tr>\n" ++ ((List.zipWith cell columns row) ++ missing).flatten ++ utf8 "</tr>\n"

/-- A table; without rows it has only a head. -/
def tableHtml (ds : List Definition) (columns : List Alignment) (header : List Text)
    (rows : List (List Text)) : Text :=
  utf8 "<table>\n<thead>\n" ++ rowHtml ds "th" columns header ++ utf8 "</thead>\n" ++
    (if rows.isEmpty then []
    else utf8 "<tbody>\n" ++ rows.flatMap (rowHtml ds "td" columns) ++ utf8 "</tbody>\n") ++
    utf8 "</table>\n"

/-- A box to tick, at the beginning of the text of a list item. -/
def taskHtml (ds : List Definition) (text : Text) : Text :=
  match text with
  | 0x5B :: mark :: 0x5D :: r =>
    let rest := inline ds (r.dropWhile isSpace)
    if isSpace mark then utf8 "<input disabled=\"\" type=\"checkbox\"> " ++ rest
    else if mark = 0x78 || mark = 0x58 then
      utf8 "<input checked=\"\" disabled=\"\" type=\"checkbox\"> " ++ rest
    else inline ds text
  | _ => inline ds text

mutual

/-- The markup of a block, given the definitions of the whole text. -/
def Block.toHtml (ds : List Definition) : Block → Text
  | .heading level text => element (s!"h{level}") (inline ds text) ++ utf8 "\n"
  | .paragraph _ text => if text.isEmpty then [] else element "p" (inline ds text) ++ utf8 "\n"
  | .code language lines =>
    utf8 "<pre><code" ++
      (if language.isEmpty then []
      else utf8 " class=\"language-" ++ escape (literalText language.length language) ++ utf8 "\"") ++
      utf8 ">" ++ escape lines ++ utf8 "</code></pre>\n"
  | .html lines => lines
  | .rule => utf8 "<hr>\n"
  | .quote bs => utf8 "<blockquote>\n" ++ blocksHtml ds bs ++ utf8 "</blockquote>\n"
  | .list start tight items =>
    match start with
    | none => utf8 "<ul>\n" ++ itemsHtml ds tight items ++ utf8 "</ul>\n"
    | some n =>
      utf8 "<ol" ++ (if n = 1 then [] else utf8 " start=\"" ++ Text.ofNat n ++ utf8 "\"") ++
        utf8 ">\n" ++ itemsHtml ds tight items ++ utf8 "</ol>\n"
  | .table columns header rows => tableHtml ds columns header rows

/-- The markup of blocks. -/
def blocksHtml (ds : List Definition) : List Block → Text
  | [] => []
  | b :: bs => b.toHtml ds ++ blocksHtml ds bs

/-- The markup of the items of a list. -/
def itemsHtml (ds : List Definition) (tight : Bool) : List (List Block) → Text
  | [] => []
  | item :: items =>
    utf8 "<li>" ++ (if tight then tightHtml ds true item else looseHtml ds item) ++ utf8 "</li>\n" ++
      itemsHtml ds tight items

/-- The markup of the blocks of an item of a tight list. -/
def tightHtml (ds : List Definition) (first : Bool) : List Block → Text
  | [] => []
  | .paragraph _ text :: bs =>
    (if text.isEmpty then []
    else (if first then taskHtml ds text else inline ds text) ++
      (if bs.isEmpty then [] else utf8 "\n")) ++ tightHtml ds false bs
  | b :: bs => (if first then utf8 "\n" else []) ++ b.toHtml ds ++ tightHtml ds false bs

/-- The markup of the blocks of an item of a list that is not tight. -/
def looseHtml (ds : List Definition) : List Block → Text
  | [] => []
  | .paragraph _ text :: bs =>
    (if text.isEmpty then [] else utf8 "\n" ++ element "p" (taskHtml ds text) ++ utf8 "\n") ++
      blocksHtml ds bs
  | b :: bs => utf8 "\n" ++ b.toHtml ds ++ blocksHtml ds bs

end

/-- The markup of a Markdown text. -/
def render (src : Text) : Text :=
  let bs := parse src
  blocksHtml (definitionsIn bs) bs

end Atmark.Markdown
