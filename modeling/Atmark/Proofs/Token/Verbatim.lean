import Atmark.Parse.Tag
import Atmark.Proofs.Token.Inside
import Atmark.Proofs.Token.Joining

/-! Code that can be copied token by token. It has none of the characters that mean something of their own there and
no braces (`Token.Verbatim`), and no `<` in it starts a tag (`Token.calmFrom`): where a statement can start, and that
is also behind a group, the name of a tag does not follow directly. -/
namespace Atmark

namespace Token

/-- No group between braces at any depth, and none of these characters. -/
structure Verbatim (marks : List Char) (ts : List Token) : Prop where
  marks : ∀ p, Inside (.punct p) ts → p.char ∉ marks
  braces : ∀ f cs, Inside (.group f cs) ts → f.delim ≠ .brace

/-- The characters that code does not copy, or not always. The last is only found in streams that a directive
builds. -/
def codeMarks : List Char := ['@', '|', ':', '?', '!', '\x7d']

/-- A `<` before the tokens reads as the beginning of a tag. -/
def opensTag (ts : List Token) : Bool :=
  ts.head?.any (fun t => t.glued && t.startsTagName) ||
    ts.head?.any (fun t => t.glued && t.isPunct '/') && ts.tail.head?.any fun t => t.glued && t.startsTagName

/-- A statement can start after the token. -/
def endsStatement : Token → Bool
  | .punct p => p.char = ';'
  | .group .. => true
  | _ => false

mutual

/-- No `<` in the token starts a tag. -/
def calm : Token → Bool
  | .group f ts => calmFrom f.delim.holdsStatements ts
  | _ => true

/-- No `<` in the tokens starts a tag, where a statement can start before them or not. -/
def calmFrom (statement : Bool) : List Token → Bool
  | [] => true
  | t :: ts => !(statement && t.isPunct '<' && opensTag ts) && calm t && calmFrom t.endsStatement ts

end

mutual

/-- The token is none of these characters and no group between braces, and neither is any token in it. -/
def isVerbatim (marks : List Char) : Token → Bool
  | .punct p => p.char ∉ marks
  | .group f ts => f.delim ≠ .brace && areVerbatim marks ts
  | _ => true

/-- None of the tokens is one of these characters or a group between braces, at any depth. -/
def areVerbatim (marks : List Char) : List Token → Bool
  | [] => true
  | t :: ts => isVerbatim marks t && areVerbatim marks ts

end

namespace Verbatim
variable {marks : List Char} {t : Token} {ts us : List Token} {f : Frame}

theorem of_areVerbatim (h : areVerbatim marks ts = true) : Verbatim marks ts := by
  have hmem {t : Token} {ts : List Token} (h : areVerbatim marks ts = true) (ht : t ∈ ts) :
      isVerbatim marks t = true := by
    induction ts with
    | nil => cases ht
    | cons u ts ih =>
      rw [areVerbatim, Bool.and_eq_true] at h
      rcases List.mem_cons.mp ht with rfl | ht
      · exact h.1
      · exact ih h.2 ht
  have hinside {t : Token} (ht : Inside t ts) : isVerbatim marks t = true := by
    induction ht with
    | here ht => exact hmem h ht
    | within hg _ ih =>
      have hgroup := hmem h hg
      rw [isVerbatim, Bool.and_eq_true] at hgroup
      exact ih hgroup.2
  constructor
  · intro p hp
    simpa [isVerbatim] using hinside hp
  · intro f cs hg
    have hgroup := hinside hg
    rw [isVerbatim, Bool.and_eq_true] at hgroup
    simpa using hgroup.1

theorem mono (h : Verbatim marks ts) (hs : ∀ u ∈ us, u ∈ ts) : Verbatim marks us :=
  ⟨fun p hp => h.marks p (hp.mono hs), fun f cs hg => h.braces f cs (hg.mono hs)⟩

theorem tail (h : Verbatim marks (t :: ts)) : Verbatim marks ts := h.mono fun _ hu => .tail _ hu

theorem group (h : Verbatim marks (.group f us :: ts)) : Verbatim marks us :=
  ⟨fun p hp => h.marks p (.within (.head _) hp), fun g cs hg => h.braces g cs (.within (.head _) hg)⟩

theorem isPunct_eq_false (h : Verbatim marks ts) {c : Char} (hc : c ∈ marks) (ht : t ∈ ts) :
    t.isPunct c = false := by
  cases t with
  | punct p =>
    have hp := h.marks p (.here ht)
    simp only [isPunct, decide_eq_false_iff_not]
    rintro rfl
    exact hp hc
  | _ => rfl

end Verbatim

variable {marks : List Char} {t : Token} {ts us : List Token}

theorem calm_of_cons {statement : Bool} {tok : Token} {ts : List Token} (h : calmFrom statement (tok :: ts) = true) :
    tok.calm = true ∧ calmFrom tok.endsStatement ts = true := by
  simp only [calmFrom, Bool.and_eq_true] at h
  exact ⟨h.1.2, h.2⟩

theorem calmFrom_append {pre post : List Token} {statement : Bool}
    (h : calmFrom statement (pre ++ post) = true) :
    calmFrom (pre.foldl (fun _ t => t.endsStatement) statement) post = true := by
  induction pre generalizing statement with
  | nil => exact h
  | cons t pre ih =>
    rw [List.cons_append, calmFrom, Bool.and_eq_true] at h
    exact ih h.2

theorem opensTag_unplaced (ts : List Token) : opensTag (unplacedAll ts) = opensTag ts := by
  have hname (t : Token) : t.unplaced.startsTagName = t.startsTagName := by cases t <;> rfl
  have hhead (p : Token → Bool) (hp : ∀ t, p t.unplaced = p t) (ts : List Token) :
      (unplacedAll ts).head?.any p = ts.head?.any p := by
    cases ts with
    | nil => rfl
    | cons t ts => exact hp t
  have htail : (unplacedAll ts).tail = unplacedAll ts.tail := by cases ts <;> rfl
  unfold opensTag
  have hstarts (ts : List Token) : (unplacedAll ts).head?.any (fun t => t.glued && t.startsTagName) =
      ts.head?.any fun t => t.glued && t.startsTagName := hhead _ (fun t => by rw [glued_unplaced, hname]) ts
  rw [htail, hstarts, hstarts, hhead _ fun t => by rw [glued_unplaced, isPunct_unplaced]]

mutual

theorem calm_unplaced : (t : Token) → t.unplaced.calm = t.calm
  | .ident _ | .literal _ | .punct _ => rfl
  | .group f ts => by rw [unplaced, calm, calm, calmFrom_unplaced ts]

theorem calmFrom_unplaced : (ts : List Token) → ∀ statement,
    calmFrom statement (unplacedAll ts) = calmFrom statement ts
  | [], _ => rfl
  | t :: ts, statement => by
    have hends : t.unplaced.endsStatement = t.endsStatement := by cases t <;> rfl
    rw [unplacedAll, calmFrom, calmFrom, opensTag_unplaced, isPunct_unplaced, calm_unplaced t, hends,
      calmFrom_unplaced ts]

end

theorem Inside.unplaced (hus : unplacedAll us = unplacedAll ts) (h : Inside t us) :
    ∃ t', Inside t' ts ∧ t'.unplaced = t.unplaced := by
  have hmem {t : Token} {ts us : List Token} (hus : unplacedAll us = unplacedAll ts) (ht : t ∈ us) :
      ∃ t' ∈ ts, t'.unplaced = t.unplaced := by
    have := List.mem_map_of_mem (f := Token.unplaced) ht
    rw [← unplacedAll_eq_map, hus, unplacedAll_eq_map] at this
    exact List.mem_map.mp this
  induction h generalizing ts with
  | here ht =>
    obtain ⟨t', ht', he⟩ := hmem hus ht
    exact ⟨t', .here ht', he⟩
  | @within f cs us hg _ ih =>
    obtain ⟨g, hg', he⟩ := hmem hus hg
    cases g with
    | group f' cs' =>
      obtain ⟨-, hcs⟩ := Token.group.inj he
      obtain ⟨t', ht', he'⟩ := ih hcs.symm
      exact ⟨t', .within hg' ht', he'⟩
    | _ => cases he

theorem Verbatim.of_unplaced (h : Verbatim marks ts) (hus : unplacedAll us = unplacedAll ts) :
    Verbatim marks us where
  marks p hp := by
    obtain ⟨t, ht, he⟩ := hp.unplaced hus
    cases t with
    | punct q =>
      obtain ⟨_, _, _⟩ := p
      obtain ⟨_, _, _⟩ := q
      cases he
      exact fun hmem => h.marks _ ht hmem
    | _ => cases he
  braces f cs hg := by
    obtain ⟨t, ht, he⟩ := hg.unplaced hus
    cases t with
    | group g ds =>
      obtain ⟨hframe, -⟩ := Token.group.inj he
      have hdelim : g.delim = f.delim := (Frame.mk.inj hframe).2.2.1
      exact hdelim ▸ h.braces _ ds ht
    | _ => cases he

/-- A character of a source that was read is none that starts a token of its own. -/
theorem not_starter_of_reads {t left : Text} {is : List Item} {space raw : Text} {c : Char}
    (h : Item.Reads t is left) (hmem : .leaf space (.punct c) raw ∈ is) : c ∉ Shape.starters := by
  induction h with
  | nil => cases hmem
  | opening _ _ _ ih | closing _ _ _ ih =>
    rcases List.mem_cons.mp hmem with hmem | hmem
    · cases hmem
    · exact ih hmem
  | leaf _ hleaf _ ih =>
    rcases List.mem_cons.mp hmem with hmem | hmem
    · cases hmem
      cases hleaf with
      | punct hstart => exact hstart
    · exact ih hmem

/-- A source has no closing brace outside the pairs. -/
theorem Verbatim.of_lex {src left : Text} (hlex : lex src = .ok (ts, left))
    (h : Verbatim ['@', '|', ':', '?', '!'] ts) : Verbatim codeMarks ts where
  marks p hp := by
    have hbrace : p.char ≠ '\x7d' := by
      intro hc
      refine not_starter_of_reads (reads_of_lex hlex).1 (mem_flatten_of_inside hp (.head _)) ?_
      rw [hc]
      decide
    intro hmem
    refine h.marks p hp ?_
    rcases List.mem_append.mp (show p.char ∈ ['@', '|', ':', '?', '!'] ++ ['\x7d'] from hmem) with hmem | hmem
    · exact hmem
    · exact (hbrace (List.mem_singleton.mp hmem)).elim
  braces := h.braces

end Token

end Atmark
