import Atmark.Code.Name
import Atmark.Proofs.Code.Markup
import Atmark.Proofs.Token.Quotation
import Atmark.Token.Print

/-! Text cannot leave its literal. What is written is quoted, and a quoted text is one token of the printed code
with the text as its value; so the code of nodes that are known before the view runs is, printed and read again,
one call that writes their text (`lex_format_static`). -/
namespace Atmark

namespace Node

/-- All that the node writes is known before the view runs. -/
def isStatic : Node → Bool
  | .attrValue pos v e => (AttrValue.mk pos v e).static?.isSome
  | n => n.isMarkup

/-- What is written for a static node. -/
def staticMarkup : Node → Text
  | .attrValue _ v _ => Code.staticText v
  | n => n.markup

end Node

namespace Code
open Node

theorem writesOnly_static (buf : Text) {n : Node} (hn : n.isStatic = true) :
    WritesOnly buf n n.staticMarkup := by
  cases n with
  | attrValue pos v e =>
    refine .call rfl ?_ (staticText_ne_nil v)
    have hexpr : ¬(v.run.isEmpty && !e.isEmpty) = true := by
      intro hexpr
      rw [isStatic, AttrValue.static?, if_pos hexpr] at hn
      cases hn
    rw [nodePieces, if_neg hexpr]
    rfl
  | _ => exact writesOnly_markup buf hn

/-! ## Printing -/

/-- No space is written before a generated token that does not begin with a word. -/
theorem gap_eq_nil (last : Option Char) {t : Token} (hg : t.glued = true)
    (hf : Token.isWordChar t.first = false) : Token.gap last t = [] := by
  simp [Token.gap, hg, hf]

theorem print_mark (last : Option Char) (pos : Option Position) {c : Char} (hc : Token.isWordChar c = false) :
    Token.print last (.mark pos c) = String.utf8EncodeChar c := by
  have hgap : Token.gap last (.punct ⟨pos, [], c⟩) = [] := gap_eq_nil last rfl hc
  rw [Token.mark, Token.print, hgap, List.nil_append]

theorem firstChar_quote (t : Text) : Token.firstChar (Text.quote t) = '\x22' := by
  have hp (r : Text) : Text.firstPiece 0x22 r = ⟨some '\x22', [0x22]⟩ :=
    Text.firstPiece_encode (show String.utf8EncodeChar '\x22' = [0x22] by decide) r
  rw [Token.firstChar, Text.quote, List.cons_append, Text.pieces_cons, hp]
  rfl

theorem print_ofText (last : Option Char) (pos : Option Position) (t : Text) :
    Token.print last (.literal (.ofText pos t)) = Text.quote t := by
  have hfirst : Token.isWordChar (Token.first (.literal (.ofText pos t))) = false := by
    rw [Token.first, Literal.ofText, firstChar_quote]
    rfl
  rw [Token.print, gap_eq_nil last rfl hfirst, List.nil_append]
  rfl

theorem print_argument (last : Option Char) (pos literalPos : Option Position) (t : Text) :
    Token.print last (.enclose pos .parenthesis [.literal (.ofText literalPos t)]) =
      utf8 "(" ++ Text.quote t ++ utf8 ")" := by
  have hgap : Token.gap last (.enclose pos .parenthesis [.literal (.ofText literalPos t)]) = [] :=
    gap_eq_nil last rfl rfl
  rw [Token.enclose] at hgap ⊢
  rw [Token.print, hgap, if_neg (by simp)]
  simp only [Token.printAll, print_ofText]
  simp [Token.breakAfter, Token.isPunct, Token.beforeCloser, Text.breaksLine]
  rfl

theorem format_writeCall (buf : Text) (pos literalPos stopPos : Option Position) (t : Text) :
    Token.format (writeCall buf pos literalPos stopPos t) =
      buf ++ utf8 ".WriteLiteral(" ++ Text.quote t ++ utf8 ");\n" := by
  have hbuf : Token.print none (.word pos buf) = buf := rfl
  have hmethod : Token.print (some '.') (.word pos (utf8 "WriteLiteral")) = utf8 "WriteLiteral" := rfl
  have hdot (last : Option Char) : Token.lastChar last (String.utf8EncodeChar '.' ++ []) = some '.' := rfl
  have hbreak {t : Token} {next : Option Token} (ht : t.isPunct ';' = false) : Token.breakAfter t next = [] := by
    simp [Token.breakAfter, ht]
  have hword {name : Text} {pos : Option Position} : (Token.word pos name).isPunct ';' = false := rfl
  have hpoint : (Token.mark pos '.').isPunct ';' = false := rfl
  have hgroup : (Token.enclose pos .parenthesis [.literal (.ofText literalPos t)]).isPunct ';' = false := rfl
  have hstop : Token.breakAfter (.mark stopPos ';') none = utf8 "\n" := rfl
  rw [Token.format, writeCall]
  simp only [Token.printAll, List.head?_cons, hbreak hword, hbreak hpoint, hbreak hgroup, hbuf,
    print_mark _ _ (show Token.isWordChar '.' = false by decide), hdot, hmethod, print_argument]
  simp only [print_mark _ _ (show Token.isWordChar ';' = false by decide), List.head?_nil, hstop]
  simp [utf8]

/-! ## Reading the printed call -/

theorem endsWord_nil : Shape.EndsWord [] := by
  intro d after h
  have := List.append_eq_nil_iff.mp h.symm
  exact (String.utf8EncodeChar_ne_nil this.1).elim

/-- A name is an identifier of the grammar. -/
theorem leaf_of_isName {name : Text} (h : isName name = true) : Shape.Leaf .ident name [] := by
  unfold isName at h
  split at h
  · cases h
  rename_i c cs hrunes
  simp only [Bool.and_eq_true, Bool.or_eq_true, decide_eq_true_eq, List.all_eq_true] at h
  obtain ⟨⟨⟨hvalid, hfirst⟩, hrest⟩, -⟩ := h
  have hname : name = Text.ofRunes (c :: cs) := by
    rw [← hrunes, Text.ofRunes, Text.runes, List.flatMap_map]
    refine (Text.pieces_bytes name).symm.trans ?_
    refine List.flatMap_congr fun p hp => ?_
    obtain ⟨d, hd⟩ := Option.isSome_iff_exists.mp (List.all_eq_true.mp hvalid p hp)
    rw [Text.bytes_of_mem_piecesFrom hp hd, Text.Piece.rune, hd, Option.getD_some]
  rw [hname]
  exact .ident hfirst hrest endsWord_nil

/-- A word ends before a character that would not go on it. -/
theorem leaf_ident_before {name : Text} (h : Shape.Leaf .ident name []) {c : Char}
    (hc : Text.isWordChar c = false) (rest : Text) :
    Shape.Leaf .ident name (String.utf8EncodeChar c ++ rest) := by
  cases h with
  | ident hfirst hrest _ =>
    refine .ident hfirst hrest fun d after hd => ?_
    obtain ⟨rfl, -⟩ := Text.encode_append_inj hd
    exact hc

theorem leaf_punct {c : Char} (hc : c ∈ ['.', ';']) (rest : Text) :
    Shape.Leaf (.punct c) (String.utf8EncodeChar c) rest := by
  have hall : ['.', ';'].all (fun c => c ∉ Shape.starters ∧ c ≠ '_' ∧ Text.isLetter c = false ∧
      c ≠ Shape.byteOrderMark ∧ c ≠ '\'') = true := by decide +kernel
  obtain ⟨hstart, hword, hletter, hmark, hquote⟩ := of_decide_eq_true (List.all_eq_true.mp hall c hc)
  exact .punct hstart hword hletter hmark fun h => (hquote h).elim

theorem reads_writeCall {buf : Text} (hbuf : Shape.Leaf .ident buf []) (pos literalPos stopPos : Option Position)
    (t : Text) : Item.Reads (Token.format (writeCall buf pos literalPos stopPos t))
      (Token.flatten (writeCall buf pos literalPos stopPos t)) (utf8 "\n") := by
  have hblank : Item.Blank [] := by simp [Item.Blank]
  have hmethod : Shape.Leaf .ident (utf8 "WriteLiteral") [] := leaf_of_isName (by decide +kernel)
  have hdot (rest : Text) := leaf_punct (c := '.') (by decide) rest
  have hstop (rest : Text) := leaf_punct (c := ';') (by decide) rest
  have htext : Token.format (writeCall buf pos literalPos stopPos t) =
      [] ++ buf ++ ([] ++ String.utf8EncodeChar '.' ++ ([] ++ utf8 "WriteLiteral" ++
        ([] ++ Delimiter.parenthesis.opening ++ ([] ++ Text.quote t ++ ([] ++ Delimiter.parenthesis.closing ++
          ([] ++ String.utf8EncodeChar ';' ++ utf8 "\n")))))) := by
    rw [format_writeCall]
    simp [utf8]
    rfl
  rw [htext]
  exact .leaf hblank (leaf_ident_before hbuf (c := '.') (by decide +kernel) _) <|
    .leaf hblank (hdot _) <|
    .leaf hblank (leaf_ident_before hmethod (c := '(') (by decide +kernel) _) <|
    .opening hblank (by decide) <|
    .leaf hblank (Shape.leaf_quote t _) <|
    .closing hblank (by decide) <|
    .leaf hblank (hstop _) .nil

/-- Tokens that read as the call are the call, wherever they stand. -/
theorem isTextCall_of_flatten {buf t : Text} {pos literalPos stopPos : Option Position} {ts : List Token}
    (h : Token.flatten ts = Token.flatten (writeCall buf pos literalPos stopPos t)) : IsTextCall buf t ts := by
  obtain ⟨r, ts, rfl, hr, h⟩ := Token.flatten_eq_leaf h
  obtain ⟨d, ts, rfl, hd, h⟩ := Token.flatten_eq_leaf h
  obtain ⟨m, ts, rfl, hm, h⟩ := Token.flatten_eq_leaf h
  obtain ⟨f, l, ts, rfl, hf, hl, h⟩ := Token.flatten_eq_group h
  obtain ⟨e, ts, rfl, he, h⟩ := Token.flatten_eq_leaf h
  have hts : ts = [] := by
    cases ts with
    | nil => rfl
    | cons u us => cases u <;> cases h
  obtain ⟨-, rfl⟩ := Token.items_eq_leaf hr
  obtain ⟨-, rfl⟩ := Token.items_eq_leaf hd
  obtain ⟨-, rfl⟩ := Token.items_eq_leaf hm
  obtain ⟨-, rfl⟩ := Token.items_eq_leaf hl
  obtain ⟨-, rfl⟩ := Token.items_eq_leaf he
  exact ⟨_, _, _, f, _, _, by rw [hts], rfl, rfl, rfl, hf, rfl, rfl, Text.unquote?_quote t⟩

/-! ## Static nodes -/

/-- The code, joined, printed and read again, is the one call that writes the text to `buf`, or nothing if the
text is empty. -/
def PrintsAs (buf t : Text) (code : List Token) : Prop :=
  if t = [] then Token.lex (Token.format (coalesce buf code)) = .ok ([], [])
  else ∃ ts, Token.lex (Token.format (coalesce buf code)) = .ok (ts, utf8 "\n") ∧ IsTextCall buf t ts

theorem printsAs_static {buf : Text} (hbuf : Shape.Leaf .ident buf []) {ns : List Node}
    (hn : ∀ n ∈ ns, n.isStatic = true) : PrintsAs buf (ns.flatMap staticMarkup) (lower buf ns) := by
  unfold PrintsAs
  rcases coalesce_writes buf fun n h => writesOnly_static buf (hn n h) with
    ⟨hempty, hcode⟩ | ⟨hne, pos, literalPos, stopPos, hcode⟩
  · rw [if_pos hempty, hcode]
    rfl
  · rw [if_neg hne, hcode]
    generalize ns.flatMap staticMarkup = t
    have hread := reads_writeCall hbuf pos literalPos stopPos t
    have hunmarked : Lexeme.unmarked (Token.format (writeCall buf pos literalPos stopPos t)) =
        Token.format (writeCall buf pos literalPos stopPos t) := by
      have hleaf := leaf_ident_before hbuf (c := '.') (by decide +kernel)
        (utf8 "WriteLiteral(" ++ Text.quote t ++ utf8 ");\n")
      have heq := hleaf.unmarked_eq
      rw [format_writeCall]
      simpa [utf8] using heq
    rw [← hunmarked] at hread
    have hblank : Item.Blank (utf8 "\n") :=
      List.all_eq_true.mp (show (utf8 "\n").all Shape.isSpace = true by decide)
    obtain ⟨ts, hlex, hts⟩ := Token.exists_lex hread hblank (Token.flatten_balanced _)
    exact ⟨ts, hlex, isTextCall_of_flatten hts⟩

/-- A static node is markup, or a value that has no expression or else a run of tokens. -/
theorem static_cases {n : Node} (hn : n.isStatic = true) : n.isMarkup = true ∨
    ∃ pos v e, n = .attrValue pos v e ∧ (v.run ≠ [] ∨ e = []) := by
  cases n with
  | attrValue pos v e =>
    refine .inr ⟨pos, v, e, rfl, ?_⟩
    simp only [isStatic, AttrValue.static?] at hn
    split at hn
    · cases hn
    · rename_i hexpr
      simp only [Bool.and_eq_true, Bool.not_eq_true', List.isEmpty_iff, List.isEmpty_eq_false_iff] at hexpr
      exact (Classical.em (v.run = [])).symm.imp_right fun hrun => Classical.not_not.mp fun he => hexpr ⟨hrun, he⟩
  | _ => exact .inl hn

/-- Reading the contents in a static node leaves it static, and what it writes the same. -/
theorem resolveNode_static {settings : Settings} {n m : Node} {w w' : World} (hn : n.isStatic = true)
    (h : resolveNode settings n w = .ok m w') : m.isStatic = true ∧ m.staticMarkup = n.staticMarkup := by
  rcases static_cases hn with hmarkup | ⟨pos, v, e, rfl, hv⟩
  · rw [resolveNode_markup settings hmarkup w] at h
    cases h
    exact ⟨hn, rfl⟩
  · rw [resolveNode] at h
    obtain ⟨e', w₁, he, hm⟩ := WorldM.bind_eq_ok h
    cases hm
    refine ⟨?_, rfl⟩
    rcases hv with hrun | rfl
    · simp [isStatic, AttrValue.static?, hrun]
    · cases he
      exact hn

theorem resolve_static {settings : Settings} {ns ms : List Node} {w w' : World}
    (hn : ∀ n ∈ ns, n.isStatic = true) (h : resolve settings ns w = .ok ms w') :
    (∀ m ∈ ms, m.isStatic = true) ∧ ms.flatMap staticMarkup = ns.flatMap staticMarkup := by
  induction ns generalizing ms w with
  | nil =>
    cases h
    exact ⟨by simp, rfl⟩
  | cons n ns ih =>
    rw [resolve] at h
    obtain ⟨m, w₁, hm, h₁⟩ := WorldM.bind_eq_ok h
    obtain ⟨ms, w₂, hms, h₂⟩ := WorldM.bind_eq_ok h₁
    cases h₂
    obtain ⟨hstatic, hmarkup⟩ := resolveNode_static (hn n (.head _)) hm
    obtain ⟨hrest, htexts⟩ := ih (fun k hk => hn k (.tail _ hk)) hms
    exact ⟨by simpa using ⟨hstatic, hrest⟩, by rw [List.flatMap_cons, List.flatMap_cons, hmarkup, htexts]⟩

end Code
end Atmark
