import Atmark.Proofs.Token.Quotation

/-! Leaf tokens that stand next to each other. A `Spelling` is what is written, each leaf with its shape and its
bytes; where every leaf ends before the bytes of the next one (`Fits`) the text is read as these leaves
(`reads`), and the tokens of the reading are these leaves wherever they stand (`exists_tokens`). -/
namespace Atmark

/-- Leaf tokens in a row, each with its shape and its bytes. -/
abbrev Spelling := List (Shape × Text)

namespace Spelling
variable {sp : Spelling} {space rest left : Text} {is : List Item}

/-- The text of the leaves. -/
def text (sp : Spelling) : Text := sp.flatMap (·.2)

/-- The leaves as items, with white space before the first. -/
def items (space : Text) : Spelling → List Item
  | [] => []
  | (s, raw) :: sp => .leaf space s raw :: items [] sp

/-- Each leaf ends before what comes next. -/
def Fits : Spelling → Text → Prop
  | [], _ => True
  | (s, raw) :: sp, rest => Shape.Leaf s raw (text sp ++ rest) ∧ Fits sp rest

@[simp] theorem text_nil : text [] = [] := rfl

@[simp] theorem text_cons (x : Shape × Text) (sp : Spelling) : text (x :: sp) = x.2 ++ text sp := rfl

@[simp] theorem text_append (sp sp' : Spelling) : text (sp ++ sp') = text sp ++ text sp' := List.flatMap_append

theorem items_append (sp' : Spelling) (hsp : sp ≠ []) :
    items space (sp ++ sp') = items space sp ++ items [] sp' := by
  induction sp generalizing space with
  | nil => exact (hsp rfl).elim
  | cons x sp ih =>
    cases sp with
    | nil => rfl
    | cons y sp => exact congrArg _ (ih (List.cons_ne_nil y sp))

theorem Fits.append {sp' : Spelling} (h : Fits sp (text sp' ++ rest)) (h' : Fits sp' rest) :
    Fits (sp ++ sp') rest := by
  induction sp with
  | nil => exact h'
  | cons x sp ih =>
    change Shape.Leaf x.1 x.2 (text (sp ++ sp') ++ rest) ∧ Fits (sp ++ sp') rest
    rw [text_append, List.append_assoc]
    exact ⟨h.1, ih h.2⟩

/-- Leaves that fit are read, after white space. -/
theorem Fits.reads (h : Fits sp rest) (space : Text) (hspace : Item.Blank space) (hsp : sp ≠ [])
    (hrest : Item.Reads rest is left) : Item.Reads (space ++ text sp ++ rest) (items space sp ++ is) left := by
  induction sp generalizing space with
  | nil => exact (hsp rfl).elim
  | cons x sp ih =>
    obtain ⟨s, raw⟩ := x
    have hmore : Item.Reads (text sp ++ rest) (items [] sp ++ is) left := by
      cases sp with
      | nil => exact hrest
      | cons y sp => simpa using ih h.2 [] (by simp [Item.Blank]) (List.cons_ne_nil y sp)
    simpa [items] using Item.Reads.leaf hspace h.1 hmore

/-- Leaves keep what comes next balanced. -/
theorem balanced (sp : Spelling) (h : Item.Balanced is) : Item.Balanced (items space sp ++ is) := by
  induction sp generalizing space with
  | nil => exact h
  | cons x sp ih => exact .leaf ih

end Spelling

/-! ## The tokens of a spelling -/

namespace Token
variable {t : Token} {ts : List Token} {space raw : Text} {is : List Item}

/-- The token of a leaf has its white space and its spelling. -/
theorem brief_of_items {s : Shape} (h : t.items = [.leaf space s raw]) : t.space = space ∧ t.brief = raw := by
  cases t <;> simp_all [items, Token.space, brief]

theorem flatten_eq_nil (h : flatten ts = []) : ts = [] := by
  cases ts with
  | nil => rfl
  | cons t us => cases t <;> simp [flatten, items] at h

end Token

namespace Spelling
variable {sp : Spelling} {space : Text} {is : List Item} {ts : List Token}

/-- Tokens that begin with the leaves. -/
theorem exists_tokens (h : Token.flatten ts = items space sp ++ is) :
    ∃ us vs, ts = us ++ vs ∧ Token.flatten us = items space sp ∧ Token.flatten vs = is := by
  induction sp generalizing space ts with
  | nil => exact ⟨[], ts, rfl, rfl, h⟩
  | cons x sp ih =>
    obtain ⟨t, ts, rfl, ht, hts⟩ := Token.flatten_eq_leaf h
    obtain ⟨us, vs, rfl, hus, hvs⟩ := ih hts
    exact ⟨t :: us, vs, rfl, by simp [Token.flatten, items, ht, hus], hvs⟩

theorem exists_leaf (h : Token.flatten ts = items [] sp) {t : Token} (ht : t ∈ ts) :
    ∃ x ∈ sp, t.items = [.leaf [] x.1 x.2] := by
  induction sp generalizing ts with
  | nil =>
    rw [Token.flatten_eq_nil h] at ht
    cases ht
  | cons x sp ih =>
    obtain ⟨u, us, rfl, hu, hus⟩ := Token.flatten_eq_leaf h
    cases ht with
    | head => exact ⟨x, .head _, hu⟩
    | tail _ ht =>
      obtain ⟨y, hy, hitems⟩ := ih hus ht
      exact ⟨y, .tail _ hy, hitems⟩

/-- What the tokens spell. -/
theorem flatMap_brief (h : Token.flatten ts = items space sp) : ts.flatMap Token.brief = text sp := by
  induction sp generalizing space ts with
  | nil =>
    rw [Token.flatten_eq_nil h]
    rfl
  | cons x sp ih =>
    obtain ⟨u, us, rfl, hu, hus⟩ := Token.flatten_eq_leaf h
    rw [List.flatMap_cons, ih hus, (Token.brief_of_items hu).2, text_cons]

end Spelling

/-! ## Words and marks -/

/-- The characters of an identifier. -/
structure Word where
  first : Char
  others : List Char
  starts : first = '_' ∨ Text.isLetter first = true
  goesOn : ∀ c ∈ others, Text.isWordChar c = true

namespace Word

def text (w : Word) : Text := Text.ofRunes (w.first :: w.others)

/-- The word as a leaf. -/
def leaf (w : Word) : Shape × Text := (.ident, w.text)

theorem isLeaf (w : Word) {rest : Text} (h : Shape.EndsWord rest) : Shape.Leaf .ident w.text rest :=
  .ident w.starts w.goesOn h

end Word

namespace Shape

/-- A punctuation character as a leaf. -/
def mark (c : Char) : Shape × Text := (.punct c, String.utf8EncodeChar c)

theorem endsWord_encode {c : Char} (hc : Text.isWordChar c = false) (rest : Text) :
    EndsWord (String.utf8EncodeChar c ++ rest) := by
  intro d after h
  rw [← (Text.encode_append_inj h).1]
  exact hc

/-- The punctuation of tags. -/
def tagMarks : List Char := ['<', '>', '/', '=', '-', ':', '@']

theorem mark_isLeaf {c : Char} (hc : c ∈ tagMarks) (rest : Text) :
    Leaf (.punct c) (String.utf8EncodeChar c) rest := by
  have hall : tagMarks.all (fun c => c ∉ starters ∧ c ≠ '_' ∧ Text.isLetter c = false ∧ c ≠ byteOrderMark ∧
      c ≠ '\'') = true := by decide +kernel
  obtain ⟨hstarters, hunderscore, hletter, hmark, hquote⟩ := of_decide_eq_true (List.all_eq_true.mp hall c hc)
  exact .punct hstarters hunderscore hletter hmark fun h => (hquote h).elim

theorem endsWord_mark {c : Char} (hc : c ∈ tagMarks) (rest : Text) :
    EndsWord (String.utf8EncodeChar c ++ rest) := by
  have hall : tagMarks.all (fun c => Text.isWordChar c = false) = true := by decide +kernel
  exact endsWord_encode (of_decide_eq_true (List.all_eq_true.mp hall c hc)) rest

end Shape
end Atmark
