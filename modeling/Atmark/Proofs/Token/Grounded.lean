import Atmark.Proofs.Parse.Contract
import Atmark.Proofs.Token.Joining

/-! Tokens that an operation can rely on. Every token of a source has a position, and the spelling of a string, a raw
string or a character literal begins and ends with its quote (`lex_grounded`), so that an operation that takes
these for granted does not fail. The same is known of whatever is left of a source or of a group in one
(`ReadFrom`). -/
namespace Atmark

/-- The quote around the literals of a kind; numbers have none. -/
def LiteralKind.quote? : LiteralKind → Option UInt8
  | .string => some 0x22
  | .rawString => some 0x60
  | .rune => some 0x27
  | .int | .float => none

namespace Literal

/-- The literal is spelled between two quotes of its kind. -/
def Quoted (l : Literal) : Prop := ∀ q, l.kind.quote? = some q → ∃ t, l.raw = q :: (t ++ [q])

/-- The spelling without its first and its last byte, if it has both; of a number the whole spelling. -/
def content? (l : Literal) : Option Text :=
  if l.kind.quote?.isNone then some l.raw
  else if 2 ≤ l.raw.length then some (l.raw.extract 1 (l.raw.length - 1))
  else none

theorem content?_eq {l : Literal} (h : l.Quoted) : l.content? = some l.content := by
  have hcut {q : UInt8} {t : Text} (hraw : l.raw = q :: (t ++ [q])) :
      2 ≤ l.raw.length ∧ l.raw.extract 1 (l.raw.length - 1) = t ∧ l.raw.tail.dropLast = t := by
    simp [hraw, List.extract_eq_take_drop]
  unfold content? content
  cases hkind : l.kind with
  | int | float => rfl
  | string | rawString | rune =>
    obtain ⟨t, hraw⟩ := h _ (by rw [hkind]; rfl)
    obtain ⟨hlength, hextract, hdrop⟩ := hcut hraw
    simp [LiteralKind.quote?, hlength, hextract, hdrop]

end Literal

theorem Shape.Number.quote?_eq {kind : LiteralKind} {raw rest : Text} (h : Number kind raw rest) :
    kind.quote? = none := by
  cases h with
  | whole => split <;> rfl
  | point => rfl

theorem Shape.Leaf.quoted {kind : LiteralKind} {raw rest : Text} (h : Leaf (.literal kind) raw rest) {q : UInt8}
    (hq : kind.quote? = some q) : ∃ t, raw = q :: (t ++ [q]) := by
  generalize hshape : Shape.literal kind = s at h
  cases h with
  | string | rawString | rune =>
    cases hshape
    cases hq
    exact ⟨_, rfl⟩
  | number hnumber =>
    cases hshape
    rw [hnumber.quote?_eq] at hq
    cases hq
  | ident | punct => cases hshape

namespace Token

/-- The token has a position, a literal has its quotes, and a group has its delimiters. -/
structure Grounded (t : Token) : Prop where
  pos : t.pos.isSome = true
  quoted : ∀ l, t = .literal l → l.Quoted
  delimited : ∀ f cs, t = .group f cs → f.delim ≠ .none

/-- Every token has what it should have, at every depth. -/
def AllGrounded (ts : List Token) : Prop := ∀ t, Inside t ts → t.Grounded

/-- Every delimiter that is read is one. -/
theorem delim_of_reads {t left space : Text} {is : List Item} {d : Delimiter} (h : Item.Reads t is left)
    (hmem : .opening space d ∈ is) : d ≠ .none := by
  induction h with
  | nil => cases hmem
  | opening _ hd _ ih =>
    rcases List.mem_cons.mp hmem with hmem | hmem
    · cases hmem
      exact hd
    · exact ih hmem
  | closing _ _ _ ih | leaf _ _ _ ih =>
    rcases List.mem_cons.mp hmem with hmem | hmem
    · cases hmem
    · exact ih hmem

/-- A literal of a source, at any depth, is spelled as the grammar says. -/
theorem leaf_of_lex {src : Text} {tokens : List Token} {trailing : Text} (h : lex src = .ok (tokens, trailing))
    {l : Literal} (hl : Inside (.literal l) tokens) : ∃ rest, Shape.Leaf (.literal l.kind) l.raw rest :=
  exists_leaf_of_reads (reads_of_lex h).1 (mem_flatten_of_inside hl (.head _))

theorem lex_grounded {src : Text} {tokens : List Token} {trailing : Text} (h : lex src = .ok (tokens, trailing)) :
    AllGrounded tokens := by
  intro t ht
  have hspanned := lex_spanned src
  rw [h] at hspanned
  obtain ⟨p, hp, -⟩ := hspanned t ht
  refine ⟨by rw [hp]; rfl, ?_, ?_⟩
  · rintro l rfl q hq
    obtain ⟨rest, hleaf⟩ := leaf_of_lex h ht
    exact hleaf.quoted hq
  · rintro f cs rfl
    exact delim_of_reads (reads_of_lex h).1 (mem_flatten_of_inside ht (.head _))

/-- The tokens are the rest of a source that `S` has, or of a group in one. -/
def ReadFrom (S : Text → Prop) (ts : List Token) : Prop :=
  ∃ src tokens trailing, S src ∧ lex src = .ok (tokens, trailing) ∧ Part tokens ts

namespace ReadFrom
variable {S S' : Text → Prop} {t : Token} {ts cs : List Token} {f : Frame}

theorem mono (h : ReadFrom S ts) (hS : ∀ src, S src → S' src) : ReadFrom S' ts := by
  obtain ⟨src, tokens, trailing, hsrc, hlex, hpart⟩ := h
  exact ⟨src, tokens, trailing, hS src hsrc, hlex, hpart⟩

theorem tail (h : ReadFrom S (t :: ts)) : ReadFrom S ts := by
  obtain ⟨src, tokens, trailing, hsrc, hlex, hpart⟩ := h
  exact ⟨src, tokens, trailing, hsrc, hlex, hpart.tail⟩

theorem drop (h : ReadFrom S ts) (n : Nat) : ReadFrom S (ts.drop n) := by
  obtain ⟨src, tokens, trailing, hsrc, hlex, hpart⟩ := h
  exact ⟨src, tokens, trailing, hsrc, hlex, hpart.drop n⟩

theorem group (h : ReadFrom S ts) (hg : .group f cs ∈ ts) : ReadFrom S cs := by
  obtain ⟨src, tokens, trailing, hsrc, hlex, hpart⟩ := h
  exact ⟨src, tokens, trailing, hsrc, hlex, hpart.group hg⟩

theorem inner (h : ReadFrom S (.group f cs :: ts)) : ReadFrom S cs := h.group (.head _)

theorem allGrounded (h : ReadFrom S ts) : AllGrounded ts := by
  obtain ⟨src, tokens, trailing, hsrc, hlex, hpart⟩ := h
  intro t ht
  induction ht with
  | here ht => exact lex_grounded hlex t (hpart.inside ht)
  | within hg _ ih => exact ih (hpart.group hg)

theorem grounded (h : ReadFrom S ts) (ht : t ∈ ts) : t.Grounded := h.allGrounded t (.here ht)

theorem pos (h : ReadFrom S (t :: ts)) : t.pos.isSome = true := (h.grounded (.head _)).pos

theorem leaf {l : Literal} (h : ReadFrom S ts) (hl : .literal l ∈ ts) :
    ∃ rest, Shape.Leaf (.literal l.kind) l.raw rest := by
  obtain ⟨src, tokens, trailing, hsrc, hlex, hpart⟩ := h
  exact leaf_of_lex hlex (hpart.inside hl)

end ReadFrom

namespace AllGrounded
variable {t : Token} {ts us : List Token}

theorem mono (h : AllGrounded ts) (hs : ∀ u ∈ us, u ∈ ts) : AllGrounded us := fun u hu => h u (hu.mono hs)

theorem cons (ht : t.Grounded) (hg : ∀ f cs, t = .group f cs → AllGrounded cs) (h : AllGrounded ts) :
    AllGrounded (t :: ts) := by
  intro u hu
  cases hu with
  | here hu =>
    rcases List.mem_cons.mp hu with rfl | hu
    · exact ht
    · exact h u (.here hu)
  | within hf hu =>
    rcases List.mem_cons.mp hf with hf | hf
    · exact hg _ _ hf.symm u hu
    · exact h u (.within hf hu)

theorem head (h : AllGrounded (t :: ts)) : t.Grounded := h t (.here (.head _))

theorem tail (h : AllGrounded (t :: ts)) : AllGrounded ts := h.mono fun _ hu => .tail _ hu

theorem inner {f : Frame} {cs : List Token} (h : AllGrounded (.group f cs :: ts)) : AllGrounded cs :=
  fun u hu => h u (.within (.head _) hu)

end AllGrounded

end Token
end Atmark
