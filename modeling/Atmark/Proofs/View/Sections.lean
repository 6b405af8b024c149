import Atmark.Proofs.Code.Dotted
import Atmark.Proofs.Parse.Blocks
import Atmark.View.Source

/-! How the blocks of a section stand in the generated file. A statement ends with a semicolon, and with a line break
after a token that can end one. The semicolon that joins two blocks is on a line of its own, so after a block that can
end a statement there are two separators (`ViewFile.sections_separated`). -/
namespace Atmark

namespace Token

/-- A line break after the token ends a statement: after an identifier, a literal and a closing delimiter. -/
def endsLine : Token → Bool
  | .punct _ => false
  | _ => true

/-- How many separators of statements there are in the tokens and before the next one: semicolons, and line breaks
where a statement can end. -/
def separators (ended : Bool) (next : Option Token) : List Token → Nat
  | [] => (ended && next.any fun t => Text.breaksLine t.space).toNat
  | t :: ts => (ended && Text.breaksLine t.space).toNat + (t.isPunct ';').toNat + separators t.endsLine next ts

/-- The tokens are those of blocks in order, but for positions, white space and dots for path separators. Between a
block and the next one are only semicolons, with so many separators as `count` gives for the block. -/
inductive Separated (count : List Token → Nat) : List (List Token) → List Token → Prop
  | nil : Separated count [] []
  | last {b us : List Token} : strippedAll us = strippedAll (dottedAll b) → Separated count [b] us
  | cons {b c us gap vs : List Token} {bs : List (List Token)} : strippedAll us = strippedAll (dottedAll b) →
      (∀ t ∈ gap, t.isPunct ';' = true) → separators (us.getLast?.any endsLine) vs.head? gap = count b →
      Separated count (c :: bs) vs → Separated count (b :: c :: bs) (us ++ gap ++ vs)

@[simp] theorem endsLine_dotted (t : Token) : t.dotted.endsLine = t.endsLine := by cases t <;> rfl

@[simp] theorem endsLine_stripped (t : Token) : t.stripped.endsLine = t.endsLine := by cases t <;> rfl

/-- Whether a statement can end after the tokens does not depend on white space and path separators. -/
theorem endsLine_getLast {b us : List Token} (h : strippedAll us = strippedAll (dottedAll b)) :
    us.getLast?.any endsLine = b.getLast?.any endsLine := by
  have hends (ts : List Token) : (strippedAll ts).getLast?.any endsLine = ts.getLast?.any endsLine := by
    rw [strippedAll_eq_map, List.getLast?_map, Option.any_map]
    congr 1
    funext t
    exact endsLine_stripped t
  rw [← hends us, h, hends]
  cases hlast : b.getLast? with
  | none =>
    rw [List.getLast?_eq_none_iff.mp hlast]
    rfl
  | some t => rw [dottedAll, getLast?_dottedFrom hlast (by simp), Option.any_some, Option.any_some, endsLine_dotted]

end Token

/-! ## Joining -/

namespace Declaration

/-- The semicolon before a block. -/
def separator (f : Frame) : Token := .punct ⟨f.pos, utf8 "\n", ';'⟩

/-- Blocks one after another, with a semicolon between them. -/
def joined : List (Frame × List Token) → List Token
  | [] => []
  | b :: bs => b.2 ++ bs.flatMap fun c => separator c.1 :: c.2

/-- Blocks without tokens add nothing. -/
theorem joinAll_some (bs : List (Frame × List Token)) (ts : List Token) (hts : ts ≠ []) :
    (joinAll (some ts) bs).getD [] =
      ts ++ (bs.filter (!·.2.isEmpty)).flatMap fun c => separator c.1 :: c.2 := by
  induction bs generalizing ts with
  | nil => simp [joinAll]
  | cons b bs ih =>
    cases hb : b.2 with
    | nil =>
      have hsame : Directive.joinBlocks ts b.1 [] = ts := by simp [Directive.joinBlocks]
      rw [List.filter_cons_of_neg (by simp [hb]), ← ih ts hts, joinAll, List.foldl_cons, Option.getD_some, hb, hsame]
    | cons t us =>
      have hmore : Directive.joinBlocks ts b.1 (t :: us) = ts ++ separator b.1 :: t :: us := by
        simp [Directive.joinBlocks, hts, separator]
      have hrest := ih (ts ++ separator b.1 :: t :: us) (by simp)
      rw [joinAll] at hrest
      rw [List.filter_cons_of_pos (by simp [hb]), joinAll, List.foldl_cons, Option.getD_some, hb, hmore, hrest,
        List.flatMap_cons, hb, List.append_assoc]

/-- A section is its blocks with a semicolon between them, those without tokens left out. -/
theorem joinAll_eq (bs : List (Frame × List Token)) (ts : Option (List Token)) (hts : ts.getD [] = []) :
    (joinAll ts bs).getD [] = joined (bs.filter (!·.2.isEmpty)) := by
  induction bs generalizing ts with
  | nil => exact hts
  | cons b bs ih =>
    have hfirst : joinAll ts (b :: bs) = joinAll (some b.2) bs := by
      simp [joinAll, Directive.joinBlocks, hts]
    rw [hfirst]
    cases hb : b.2 with
    | nil => rw [List.filter_cons_of_neg (by simp [hb]), ih _ rfl]
    | cons t us => rw [List.filter_cons_of_pos (by simp [hb]), joinAll_some bs _ (by simp), joined, hb]

end Declaration

/-! ## Printing -/

namespace Token
open Declaration

/-- One separator, and one more where the block can end a statement. -/
def separatorsAfter (b : List Token) : Nat := (b.getLast?.any endsLine).toNat + 1

theorem dottedAll_separator (ts : List Token) (f : Frame) (us : List Token) :
    dottedAll (ts ++ separator f :: us) = dottedAll ts ++ separator f :: dottedAll us := by
  have hself : dottedAll (separator f :: us) = separator f :: dottedAll us := by
    have hnot : Node.isPathSeparator (separator f) us = false := by
      match us with
      | [] | [_] => rfl
      | _ :: _ :: _ => simp [Node.isPathSeparator, separator, isPunct]
    rw [dottedAll, dottedFrom, hnot]
    rfl
  rw [dottedAll, dottedFrom_append (by simp [separator, isPunct]) rfl (by simp), hself]
  rfl

/-- Joined blocks are printed one after another, each semicolon on a line of its own. -/
theorem separated_printed (b : Frame × List Token) (bs : List (Frame × List Token)) (before : Text)
    (last : Option Char) :
    Separated separatorsAfter ((b :: bs).map (·.2)) (printedAll before last (dottedAll (joined (b :: bs)))) := by
  induction bs generalizing b before last with
  | nil => exact .last (by simp [joined, strippedAll_printedAll])
  | cons c bs ih =>
    have hjoined : joined (b :: c :: bs) = b.2 ++ separator c.1 :: joined (c :: bs) := by simp [joined]
    obtain ⟨us, before', last', hprinted, hus, -⟩ :=
      printedAll_append (dottedAll b.2) (separator c.1 :: dottedAll (joined (c :: bs))) before last
    rw [hjoined, dottedAll_separator, hprinted, printedAll, List.append_cons]
    have hbreaks : Text.breaksLine (printed before' last' (separator c.1)).space = true := by
      have hspace : gap last' (separator c.1) = utf8 "\n" := rfl
      have hnewline : (utf8 "\n").any Text.isLineBreak = true := rfl
      rw [space_printed, hspace, Text.breaksLine, List.any_append, hnewline, Bool.or_true]
    have hpunct : (printed before' last' (separator c.1)).isPunct ';' = true := rfl
    have hended : (printed before' last' (separator c.1)).endsLine = false := rfl
    refine .cons hus (by simpa using hpunct) ?_ (ih c _ _)
    simp [separators, hbreaks, hpunct, hended, endsLine_getLast hus, separatorsAfter]

end Token

/-! ## Sections -/

/-- The code of the section in the file of a view. -/
def CodeSection.source (s : CodeSection) (f : ViewFile) : Text :=
  match s with
  | .functions => f.functions
  | .fields => f.fields
  | .methods => f.methods

namespace ViewFile
open Token

theorem source_ofTemplate {settings : Settings} {t : Template} {w w' : World} {f : ViewFile}
    (h : ofTemplate settings t w = .ok f w') (s : CodeSection) :
    s.source f = sectionSource settings.buffer (t.declared.sectionOf? s.name) := by
  obtain ⟨code, w₁, -, hret⟩ := WorldM.bind_eq_ok h
  cases hret
  cases s <;> rfl

/-- The code of a section in the file of a template is that of the blocks which the template declares for it, those
without tokens left out. Between two blocks is a semicolon, after a line break; so there are two separators after a
block that ends with an identifier, a literal or a group, and one after any other. -/
theorem sections_separated {settings settings' : Settings} {path src : Text} {w w' v v' : World} {t : Template}
    {f : ViewFile} (s : CodeSection) (hparse : Template.parse .standard settings path src w = .ok t w')
    (hfile : ofTemplate settings' t v = .ok f v') :
    ∃ (bs : List CodeBlock) (us : List Token) (left : Text), (∀ b ∈ bs, b.In s.name src) ∧
      recordsOf s.name w'.log = (bs.map (directiveRecord path ·.id)).reverse ++ recordsOf s.name w.log ∧
      s.source f = Text.trim (sourceWithSpace us ++ left) ∧ Item.Blank left ∧
      Separated separatorsAfter ((bs.map (·.tokens)).filter (!·.isEmpty)) us := by
  obtain ⟨bs, hbs, hrecords, hsection⟩ := Template.declared_blocks s hparse
  have hjoined := Declaration.joinAll_eq (bs.map fun b => (b.frame, b.tokens)) none rfl
  rw [← hsection] at hjoined
  have hsource := source_ofTemplate hfile s
  have hprinted (ts : List Token) : Token.format ts = sourceWithSpace (printedAll [] none ts) ++ trail [] ts :=
    printAll_eq ts [] none
  rw [ViewFile.sectionSource, Code.lower_ofTokens, hjoined, hprinted] at hsource
  have hblocks : (bs.map (·.tokens)).filter (!·.isEmpty) =
      ((bs.map fun b => (b.frame, b.tokens)).filter (!·.2.isEmpty)).map (·.2) := by
    simp [List.filter_map, Function.comp_def]
  refine ⟨bs, _, _, hbs, hrecords, hsource, blank_trail _ (by simp [Item.Blank]), ?_⟩
  rw [hblocks]
  cases (bs.map fun b => (b.frame, b.tokens)).filter (!·.2.isEmpty) with
  | nil => exact .nil
  | cons b bs => exact separated_printed b bs [] none

/-- A file with two blocks of functions that end with literals. -/
def sampleSections : Template.Parsing where
  settings := { markdown := .ok }
  path := utf8 "a.html"
  src := utf8 "@functions \x7bvar a = 1\x7d\n@functions \x7bvar b = 2\x7d"
  expects t := WorldM.returned (·.functions = utf8 "var a = 1\n;\nvar b = 2") (ofTemplate { markdown := .ok } t {})
  parses := by decide +kernel

/-- The line break ends the first declaration, so the semicolon after it ends an empty one. -/
theorem sections_separated_functions : ∃ t w' f v',
    Template.parse .standard sampleSections.settings sampleSections.path sampleSections.src {} = .ok t w' ∧
      ofTemplate { markdown := .ok } t {} = .ok f v' ∧ f.functions = utf8 "var a = 1\n;\nvar b = 2" ∧
      ∃ (bs : List CodeBlock) (us : List Token) (left : Text), recordsOf (utf8 "functions") w'.log =
          (bs.map (directiveRecord sampleSections.path ·.id)).reverse ∧
        f.functions = Text.trim (sourceWithSpace us ++ left) ∧ Item.Blank left ∧
        Separated separatorsAfter ((bs.map (·.tokens)).filter (!·.isEmpty)) us := by
  obtain ⟨t, w', hparse, hexpects⟩ := WorldM.exists_of_returned sampleSections.parses
  obtain ⟨f, v', hfile, hfunctions⟩ := WorldM.exists_of_returned hexpects
  obtain ⟨bs, us, left, -, hrecords, hsource, hleft, hseparated⟩ := sections_separated .functions hparse hfile
  refine ⟨t, w', f, v', hparse, hfile, of_decide_eq_true hfunctions, bs, us, left, ?_, hsource, hleft, hseparated⟩
  simpa [recordsOf, CodeSection.name] using hrecords

end ViewFile
end Atmark
