import Atmark.Markdown.Link
import Atmark.Markdown.Markup

/-!
The blocks of a Markdown text. The lines of a quote or of a list item, without what marks them, are
read as blocks again, so that every container holds fewer characters than the text around it.
-/
namespace Atmark.Markdown

/-- Where the text of a table column stands. -/
inductive Alignment where
  | unset
  | left
  | center
  | right
  deriving DecidableEq, Repr

/-- A block. Texts are not cut into items yet. The lines of code and markup are kept with the line
breaks that end them; at the end of a text there may be none. -/
inductive Block where
  | heading (level : Nat) (text : Text)
  /-- A paragraph after the definitions that it began with. If there is no text, they were all of it. -/
  | paragraph (definitions : List Definition) (text : Text)
  | code (language : Text) (lines : Text)
  | html (lines : Text)
  | rule
  | quote (blocks : List Block)
  /-- A list, with the number of its first item if the items are numbered. -/
  | list (start : Option Nat) (tight : Bool) (items : List (List Block))
  /-- A table; a row may have fewer cells than there are columns. -/
  | table (columns : List Alignment) (header : List Text) (rows : List (List Text))

/-- A line. It is lazy if it stands outside the container whose paragraph it continues: then it is
nothing but a part of that paragraph. -/
structure Line where
  text : Text
  isLazy : Bool := false

/-- The lines of a text, with spaces for the tabs before the first character. -/
def linesOf (src : Text) : List Line :=
  let unified := src.filter (· != 0x0D)
  let lines := Text.splitOn 0x0A unified
  let lines := if lines.getLast? = some [] then lines.dropLast else lines
  lines.map fun l => { text := untab 0 l }
where
  /-- A line from a column on, with spaces for the leading tabs. -/
  untab (column : Nat) : Text → Text
    | 0x20 :: r => 0x20 :: untab (column + 1) r
    | 0x09 :: r => List.replicate (4 - column % 4) 0x20 ++ untab 0 r
    | t => t

/-- The number of spaces before the first other character. -/
def indent (line : Text) : Nat := (line.takeWhile (· == 0x20)).length

/-- The line without spaces and tabs at its beginning. -/
def unindented (line : Text) : Text := line.dropWhile Text.isIndent

/-- The line without spaces and tabs at its end. -/
def unpadded (line : Text) : Text := Text.dropEndWhile Text.isIndent line

/-- The line has nothing but spaces and tabs. -/
def isBlankLine (line : Text) : Bool := line.all Text.isIndent

/-- The line without at most `n` leading spaces. -/
def outdent : Nat → Text → Text
  | n + 1, 0x20 :: r => outdent n r
  | _, t => t

/-- Three or more of one mark and nothing else. -/
def isRule (line : Text) : Bool :=
  let marks := line.filter (!Text.isIndent ·)
  indent line < 4 && 3 ≤ marks.length && match marks with
    | b :: r => (b = 0x2A || b = 0x2D || b = 0x5F) && r.all (· == b)
    | [] => false

/-- The text of a heading without the marks that close it. -/
def headingText (t : Text) : Text :=
  let t := unpadded (unindented t)
  let rest := Text.dropEndWhile (· == 0x23) t
  if rest.isEmpty then []
  else if rest.length < t.length && rest.getLast?.any Text.isIndent then unpadded rest
  else t

/-- The level and the text of a heading that is marked at its beginning. -/
def heading? (line : Text) : Option (Nat × Text) :=
  let t := unindented line
  let marks := t.takeWhile (· == 0x23)
  let rest := t.drop marks.length
  if indent line < 4 && 1 ≤ marks.length && marks.length ≤ 6 &&
      (rest.isEmpty || rest.head?.any Text.isIndent) then
    some (marks.length, headingText rest)
  else none

/-- The level of a heading that this line underlines. -/
def underline? (line : Text) : Option Nat :=
  let t := unpadded (unindented line)
  if 4 ≤ indent line then none
  else match t with
    | 0x3D :: r => if r.all (· == 0x3D) then some 1 else none
    | 0x2D :: r => if r.all (· == 0x2D) then some 2 else none
    | _ => none

/-- The mark, its length and the rest of a line that starts a code block. -/
def fence? (line : Text) : Option (UInt8 × Nat × Text) :=
  match unindented line with
  | b :: r =>
    let run := (b :: r).takeWhile (· == b)
    let info := unpadded (unindented ((b :: r).drop run.length))
    if indent line < 4 && (b = 0x60 || b = 0x7E) && 3 ≤ run.length &&
        !(b = 0x60 && info.contains 0x60) then
      some (b, run.length, info)
    else none
  | [] => none

/-- The line ends a code block. -/
def endsFence (mark : UInt8) (size : Nat) (line : Text) : Bool :=
  let t := unpadded (unindented line)
  indent line < 4 && size ≤ t.length && t.all (· == mark)

/-- The elements that make a block of markup. -/
def blockTags : List Text :=
  ["address", "article", "aside", "base", "basefont", "blockquote", "body", "caption", "center", "col",
    "colgroup", "dd", "details", "dialog", "dir", "div", "dl", "dt", "fieldset", "figcaption", "figure",
    "footer", "form", "frame", "frameset", "h1", "h2", "h3", "h4", "h5", "h6", "head", "header", "hr",
    "html", "iframe", "legend", "li", "link", "main", "menu", "menuitem", "meta", "nav", "noframes",
    "ol", "optgroup", "option", "p", "param", "section", "source", "summary", "table", "tbody", "td",
    "tfoot", "th", "thead", "title", "tr", "track", "ul"].map utf8

/-- The elements whose markup goes on to their closing tag. -/
def verbatimTags : List Text := ["script", "pre", "style", "textarea"].map utf8

/-- How a block of markup ends. -/
inductive MarkupEnd where
  /-- With the first line that holds one of these texts. -/
  | holding (stops : List Text)
  /-- Before the first blank line. -/
  | blank

/-- How the block of markup that a line starts ends. A line with a single tag of any name starts one
only where no paragraph goes on. -/
def markupEnd? (inParagraph : Bool) (line : Text) : Option MarkupEnd :=
  match unindented line with
  | 0x3C :: t =>
    let closing := t.head? = some 0x2F
    let name := ((tagName? (if closing then t.drop 1 else t)).map fun (n, _) => Text.lower n).getD []
    let after := (t.drop (if closing then 1 else 0)).drop name.length
    let ended := after.isEmpty || after.head?.any isSpace || after.head? = some 0x3E
    if 4 ≤ indent line then none
    else if !closing && ended && verbatimTags.contains name then
      some (.holding (verbatimTags.map fun n => utf8 "</" ++ n ++ utf8 ">"))
    else if Text.startsWith (utf8 "!--") t then some (.holding [utf8 "-->"])
    else if Text.startsWith (utf8 "?") t then some (.holding [utf8 "?>"])
    else if Text.startsWith (utf8 "![CDATA[") t then some (.holding [utf8 "]]>"])
    else if t.head? = some 0x21 && (t.drop 1).head?.any isAlpha then some (.holding [utf8 ">"])
    else if blockTags.contains name && (ended || Text.startsWith (utf8 "/>") after) then some .blank
    else if inParagraph then none
    else (afterTag? t).bind fun rest => if isBlankLine rest then some .blank else none
  | _ => none

/-- The lines of a block of markup, and what follows. -/
def markupLines (stop : MarkupEnd) : List Line → List Line × List Line
  | [] => ([], [])
  | l :: ls =>
    match stop with
    | .blank =>
      if isBlankLine l.text then ([], l :: ls)
      else
        let (x, y) := markupLines stop ls
        (l :: x, y)
    | .holding stops =>
      if stops.any fun s => Text.holds s (Text.lower l.text) then ([l], ls)
      else
        let (x, y) := markupLines stop ls
        (l :: x, y)

/-- What marks the items of a list. -/
structure Bullet where
  /-- The mark, or the character after the number. -/
  mark : UInt8
  number : Option Nat
  deriving DecidableEq, Repr

/-- Two items with these marks belong to one list. -/
def Bullet.continues (a b : Bullet) : Bool := a.mark = b.mark && a.number.isSome = b.number.isSome

/-- The beginning of a list item: its mark, the column of its content, and its first line. -/
def item? (line : Text) : Option (Bullet × Nat × Text) :=
  let t := unindented line
  let digits := t.takeWhile isDecimal
  let found := match t.drop digits.length with
    | b :: r =>
      if digits.isEmpty && (b = 0x2A || b = 0x2B || b = 0x2D) then
        some ({ mark := b, number := none : Bullet }, r)
      else if !digits.isEmpty && digits.length ≤ 9 && (b = 0x2E || b = 0x29) then
        some ({ mark := b, number := some (decimalValue digits) }, r)
      else none
    | [] => none
  match found with
  | none => none
  | some (bullet, rest) =>
    let width := indent line + digits.length + 1
    if 4 ≤ indent line || !(rest.isEmpty || rest.head?.any Text.isIndent) then none
    else
      let spaces := indent rest
      if isBlankLine rest then some (bullet, width + 1, [])
      else if spaces = 0 || 5 ≤ spaces then some (bullet, width + 1, rest.drop 1)
      else some (bullet, width + spaces, rest.drop spaces)

/-- The rest of a line of a quote. -/
def quoted? (line : Text) : Option Text :=
  match unindented line with
  | 0x3E :: r => if indent line < 4 then some (outdent 1 r) else none
  | _ => none

/-- The cells of a table row. A backslash keeps a bar inside a cell. -/
def cells (line : Text) : List Text :=
  let t := unpadded (unindented line)
  let t := if t.head? = some 0x7C then t.drop 1 else t
  let parts := split t
  let parts := if 1 < parts.length && parts.getLast?.any isBlankLine then parts.dropLast else parts
  parts.map fun c => unpadded (unindented c)
where
  /-- The texts between bars. -/
  split : Text → List Text
    | [] => [[]]
    | 0x5C :: 0x7C :: r => add 0x7C (split r)
    | b :: r => if b = 0x7C then [] :: split r else add b (split r)
  /-- The texts with a byte before the first of them. -/
  add (b : UInt8) : List Text → List Text
    | [] => [[b]]
    | t :: ts => (b :: t) :: ts

/-- The alignment that a cell of the second row of a table gives. -/
def alignment? (cell : Text) : Option Alignment :=
  let atLeft : Bool := cell.head? == some 0x3A
  let dashes := if atLeft then cell.drop 1 else cell
  let atRight : Bool := dashes.getLast? == some 0x3A
  let dashes := if atRight then dashes.dropLast else dashes
  if dashes.isEmpty || dashes.any (· != 0x2D) then none
  else some (match atLeft, atRight with
    | true, true => .center
    | true, false => .left
    | false, true => .right
    | false, false => .unset)

/-- The table at the end of the lines of a paragraph: the lines before it, its columns, the line of its
header and those of its rows. The second line of a table has the marks of its columns, as many as there
are cells in the first. -/
def table? : List Text → Option (List Text × List Alignment × Text × List Text)
  | header :: marks :: rows =>
    match (cells marks).mapM alignment? with
    | some columns =>
      if columns.length = (cells header).length then some ([], columns, header, rows) else none
    | none => (table? (marks :: rows)).map fun (before, t) => (header :: before, t)
  | _ => none

/-- The line ends a paragraph that goes before it. -/
def interrupts (line : Text) : Bool :=
  isBlankLine line || isRule line || (heading? line).isSome || (fence? line).isSome ||
    (quoted? line).isSome || (markupEnd? true line).isSome ||
    match item? line with
    | some (b, _, first) => !first.isEmpty && b.number.all (· == 1)
    | none => false

/-- The lines of a quote without their marks, and what follows. A paragraph in it may go on without
marks. -/
def quoteLines (inParagraph : Bool) : List Line → List Line × List Line
  | [] => ([], [])
  | l :: ls =>
    let lazily : List Line × List Line :=
      let (x, y) := quoteLines true ls
      ({ l with isLazy := true } :: x, y)
    if l.isLazy then lazily
    else match quoted? l.text with
      | some inner =>
        let (x, y) := quoteLines (!isBlankLine inner && (fence? inner).isNone && indent inner < 4) ls
        ({ text := inner } :: x, y)
      | none => if inParagraph && !interrupts l.text then lazily else ([], l :: ls)

/-- The further lines of a list item whose content starts in a column, and what follows. A paragraph in
it may go on without indentation. -/
def itemLines (column : Nat) (inParagraph : Bool) : List Line → List Line × List Line
  | [] => ([], [])
  | l :: ls =>
    let text := l.text
    if l.isLazy || (indent text < column && inParagraph && !interrupts text && (item? text).isNone) then
      let (x, y) := itemLines column true ls
      ({ text, isLazy := true } :: x, y)
    else if isBlankLine text then
      let (x, y) := itemLines column false ls
      ({ text := [] } :: x, y)
    else if column ≤ indent text then
      let (x, y) := itemLines column true ls
      ({ text := text.drop column } :: x, y)
    else ([], l :: ls)

/-- The lines without the blank ones at the end, and how many those are. -/
def dropBlankEnd (ls : List Line) : List Line × Nat :=
  let kept := Text.dropEndWhile (fun l => isBlankLine l.text) ls
  (kept, ls.length - kept.length)

/-- The lines of an item after its first one, and what follows. An item whose first two lines are blank
is empty. -/
def furtherLines (column : Nat) (first : Text) (ls : List Line) : List Line × List Line :=
  if first.isEmpty && ls.head?.any fun l => isBlankLine l.text then
    let blank (l : Line) : Bool := isBlankLine l.text
    (ls.takeWhile blank, ls.dropWhile blank)
  else itemLines column (!first.isEmpty) ls

/-- The lines of the items of a list, each with whether blank lines follow it inside the list; and the
lines after the list. At most `n` items are read. -/
def listItems (bullet : Bullet) : Nat → List Line → List (List Line × Bool) × List Line
  | 0, ls => ([], ls)
  | _, [] => ([], [])
  | n + 1, l :: ls =>
    match item? l.text with
    | none => ([], l :: ls)
    | some (b, column, first) =>
      if isRule l.text || !bullet.continues b then ([], l :: ls)
      else
        let (more, rest) := furtherLines column first ls
        let (kept, blanks) := dropBlankEnd more
        let lines := if first.isEmpty then kept else { text := first } :: kept
        let (items, after) := listItems bullet n rest
        if items.isEmpty then ([(lines, false)], List.replicate blanks { text := [] } ++ rest)
        else ((lines, 0 < blanks) :: items, after)

/-- The text of a paragraph or of a heading over several lines, and how it ends. -/
inductive Ending where
  | plain
  | underlined (level : Nat)

/-- The further lines of a paragraph, how it ends, and what follows. -/
def paragraphLines : List Line → List Line × Ending × List Line
  | [] => ([], .plain, [])
  | l :: ls =>
    let goOn : List Line × Ending × List Line :=
      let (x, e, y) := paragraphLines ls
      (l :: x, e, y)
    if l.isLazy then goOn
    else match underline? l.text with
      | some level => ([], .underlined level, ls)
      | none => if interrupts l.text then ([], .plain, l :: ls) else goOn

/-- Lines joined to the text of one block. -/
def joined (ls : List Line) : Text :=
  unpadded (Text.intercalate [0x0A] (ls.map fun l => unindented l.text))

/-- A paragraph, and perhaps the table that it ends with. Where nothing else is left, the definitions
stand after the table. -/
def paragraphOrTable (ds : List Definition) (text : Text) : List Block :=
  match table? (Text.splitOn 0x0A text) with
  | none => [.paragraph ds text]
  | some (before, columns, header, rows) =>
    let table := .table columns (cells header) (rows.map fun r => (cells r).take columns.length)
    if !before.isEmpty then [.paragraph ds (Text.intercalate [0x0A] before), table]
    else if ds.isEmpty then [table]
    else [table, .paragraph ds []]

/-- The paragraph, table or heading that starts with a line, and what follows. Where all lines of a
heading are definitions, the line under them starts a paragraph. -/
def paragraphFrom (l : Line) (ls : List Line) : List Block × List Line :=
  let (more, ending, rest) := paragraphLines ls
  let text := joined (l :: more)
  let (ds, text) := definitions text.length text
  match ending with
  | .plain => (paragraphOrTable ds text, rest)
  | .underlined level =>
    if ds.isEmpty then ([.heading level text], rest)
    else if !text.isEmpty then ([.heading level text, .paragraph ds []], rest)
    else
      let under := (ls.drop more.length).take 1
      let (more, ending, rest) := paragraphLines rest
      let text := joined (under ++ more)
      (.paragraph ds [] :: [match ending with
        | .plain => .paragraph [] text
        | .underlined level => .heading level text], rest)

/-- The lines of indented code, and what follows. -/
def indentedCode (ls : List Line) : List Text × List Line :=
  let inCode (l : Line) : Bool := isBlankLine l.text || 4 ≤ indent l.text
  let (kept, blanks) := dropBlankEnd (ls.takeWhile inCode)
  (kept.map fun l => outdent 4 l.text, List.replicate blanks { text := [] } ++ ls.dropWhile inCode)

/-- Lines with the line breaks after them, except perhaps after the last. -/
def verbatim (isOpen : Bool) (ls : List Text) : Text :=
  Text.intercalate [0x0A] ls ++ if isOpen || ls.isEmpty then [] else [0x0A]

/-- The blocks of lines, each with whether blank lines stand before it; at most `n` steps are taken. The
lines are `isOpen` if no line break ends the last. -/
def blocks : Nat → Bool → Bool → List Line → List (Bool × Block)
  | 0, _, _, _ => []
  | _, _, _, [] => []
  | n + 1, isOpen, gap, line :: ls =>
    let l := line.text
    let goOn (b : Block) (rest : List Line) : List (Bool × Block) :=
      (gap, b) :: blocks n isOpen false rest
    if isBlankLine l then blocks n isOpen true ls
    else if 4 ≤ indent l then
      let (code, rest) := indentedCode (line :: ls)
      goOn (.code [] (verbatim (isOpen && rest.isEmpty) code)) rest
    else if isRule l then goOn .rule ls
    else match heading? l with
    | some (level, text) => goOn (.heading level text) ls
    | none => match fence? l with
      | some (mark, size, info) =>
        let inCode (x : Line) : Bool := !endsFence mark size x.text
        let rest := ls.dropWhile inCode
        let code := (ls.takeWhile inCode).map fun x => outdent (indent l) x.text
        goOn (.code (info.takeWhile (!Text.isIndent ·)) (verbatim (isOpen && rest.isEmpty) code))
          (rest.drop 1)
      | none => match markupEnd? false l with
        | some stop =>
          let (lines, rest) := markupLines stop (line :: ls)
          goOn (.html (verbatim (isOpen && rest.isEmpty) (lines.map (·.text)))) rest
        | none => match quoted? l with
          | some _ =>
            let (inner, rest) := quoteLines false (line :: ls)
            goOn (.quote ((blocks n (isOpen && rest.isEmpty) false inner).map (·.2))) rest
          | none => match item? l with
            | some (bullet, _, _) =>
              let (items, rest) := listItems bullet (ls.length + 1) (line :: ls)
              let count := items.length
              let read := items.zipIdx.map fun ((lines, blanks), i) =>
                (blocks n (isOpen && rest.isEmpty && i + 1 = count) false lines, blanks)
              let tight := read.all fun (bs, blanks) => !blanks && bs.all (!·.1)
              goOn (.list bullet.number tight (read.map fun (bs, _) => bs.map (·.2))) rest
            | none =>
              let (bs, rest) := paragraphFrom line ls
              bs.map (gap, ·) ++ blocks n isOpen false rest

/-- The blocks of a text. Every step takes a line or goes into a container, which takes a character. -/
def parse (src : Text) : List Block :=
  (blocks (src.length + 1) (src.getLast? != some 0x0A) false (linesOf src)).map (·.2)

mutual

/-- The definitions in a block. -/
def Block.definitions : Block → List Definition
  | .paragraph ds _ => ds
  | .quote bs => definitionsIn bs
  | .list _ _ items => definitionsOfItems items
  | _ => []

/-- The definitions in blocks, in order. -/
def definitionsIn : List Block → List Definition
  | [] => []
  | b :: bs => b.definitions ++ definitionsIn bs

/-- The definitions in the items of a list, in order. -/
def definitionsOfItems : List (List Block) → List Definition
  | [] => []
  | item :: items => definitionsIn item ++ definitionsOfItems items

end

end Atmark.Markdown
