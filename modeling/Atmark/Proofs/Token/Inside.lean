import Atmark.Proofs.Token.Lossless

/-! Tokens at any depth. Every token of a source is one of its lexemes or a group, so what is known of
the bytes of the source is known of all its tokens: in a source without markers and without white space
before `>`, no token at any depth is a marker, and every `>` is glued (`static_of_lex`). -/
namespace Atmark

namespace Token

/-- The token is in the list or in a group in it, at any depth. -/
inductive Inside (t : Token) : List Token → Prop
  | here {ts : List Token} : t ∈ ts → Inside t ts
  | within {f : Frame} {cs ts : List Token} : .group f cs ∈ ts → Inside t cs → Inside t ts

theorem Inside.mono {t : Token} {ts us : List Token} (h : Inside t ts) (hs : ∀ u ∈ ts, u ∈ us) :
    Inside t us := by
  cases h with
  | here h => exact .here (hs t h)
  | within hg h => exact .within (hs _ hg) h

/-- A token in a list is spelled in the source of the list. -/
theorem Inside.source {t : Token} {ts : List Token} (h : Inside t ts) :
    t.space ++ t.source <:+: sourceWithSpace ts := by
  induction h with
  | here h =>
    obtain ⟨as, bs, rfl⟩ := List.append_of_mem h
    refine ⟨sourceWithSpace as, sourceWithSpace bs, ?_⟩
    simp [sourceWithSpace_append, sourceWithSpace]
  | @within f cs ts hg _ ih =>
    obtain ⟨as, bs, rfl⟩ := List.append_of_mem hg
    refine ih.trans ?_
    refine ⟨sourceWithSpace as ++ f.space ++ f.delim.opening,
      f.closeSpace ++ f.delim.closing ++ sourceWithSpace bs, ?_⟩
    simp [sourceWithSpace_append, sourceWithSpace, Token.source, Token.space]

/-- Markup without markers, where no white space stands before `>`, at any depth. -/
def Static (ts : List Token) : Prop :=
  ∀ p, Inside (.punct p) ts → p.char ≠ '@' ∧ (p.char = '>' → p.space = [])

namespace Static
variable {t : Token} {ts us : List Token}

theorem mono (h : Static ts) (hs : ∀ u ∈ us, u ∈ ts) : Static us :=
  fun p hp => h p (hp.mono hs)

theorem tail (h : Static (t :: ts)) : Static ts := h.mono fun _ hu => .tail _ hu

theorem drop (h : Static ts) (n : Nat) : Static (ts.drop n) := h.mono fun _ hu => List.mem_of_mem_drop hu

theorem group {f : Frame} (h : Static (.group f us :: ts)) : Static us :=
  fun p hp => h p (.within (.head _) hp)

theorem not_marker (h : Static ts) (ht : t ∈ ts) : t.isPunct '@' = false := by
  cases t with
  | punct p => simpa [isPunct] using (h p (.here ht)).1
  | _ => rfl

theorem glued (h : Static ts) (ht : t ∈ ts) (hg : t.isPunct '>' = true) : t.space = [] := by
  cases t with
  | punct p => exact (h p (.here ht)).2 (by simpa [isPunct] using hg)
  | _ => cases hg

end Static

/-! ## The tokens of a source -/

/-- A character of the tree is a lexeme, or was there before. -/
theorem inside_of_nest {p : Punct} {gs : List OpenGroup} {done : List Token} {ls : List Lexeme}
    {e : Ending} {ts : List Token} {trailing : Text} (h : nest gs done ls e = .ok (ts, trailing))
    (hl : ∀ f cs, .leaf (.group f cs) ∉ ls) (hp : Inside (.punct p) ts) :
    .leaf (.punct p) ∈ ls ∨ Inside (.punct p) done ∨ ∃ g ∈ gs, Inside (.punct p) g.before := by
  -- Tokens read before the current group stand in `done`, those of the groups around it in `gs`.
  fun_induction nest gs done ls e with
  | case1 | case3 | case6 | case8 => cases h
  | case2 done space =>
    cases h
    exact .inr (.inl (hp.mono fun u hu => List.mem_reverse.mp hu))
  | case4 gs done t ls e ih =>
    rcases ih h fun f cs hm => hl f cs (.tail _ hm) with h | h | h
    · exact .inl (.tail _ h)
    · cases h with
      | here h =>
        rcases List.mem_cons.mp h with rfl | h
        · exact .inl (.head _)
        · exact .inr (.inl (.here h))
      | within hg hi =>
        rcases List.mem_cons.mp hg with rfl | hg
        · exact (hl _ _ (.head _)).elim
        · exact .inr (.inl (.within hg hi))
    · exact .inr (.inr h)
  | case5 gs done pos sp d ls e ih =>
    rcases ih h fun f cs hm => hl f cs (.tail _ hm) with h | h | ⟨g, hg, h⟩
    · exact .inl (.tail _ h)
    · cases h with
      | here h => cases h
      | within hg => cases hg
    · rcases List.mem_cons.mp hg with rfl | hg
      · exact .inr (.inl h)
      · exact .inr (.inr ⟨g, hg, h⟩)
  | case7 g gs done pos sp c ls e hc frame ih =>
    rcases ih h fun f cs hm => hl f cs (.tail _ hm) with h | h | ⟨g', hg', h⟩
    · exact .inl (.tail _ h)
    · cases h with
      | here h =>
        rcases List.mem_cons.mp h with h | h
        · cases h
        · exact .inr (.inr ⟨g, .head _, .here h⟩)
      | within hg hi =>
        rcases List.mem_cons.mp hg with hg | hg
        · cases hg
          exact .inr (.inl (hi.mono fun u hu => List.mem_reverse.mp hu))
        · exact .inr (.inr ⟨g, .head _, .within hg hi⟩)
    · exact .inr (.inr ⟨g', .tail _ hg', h⟩)

/-- A leaf of the scan is no group, and only white space stands before it. -/
theorem leaf_of_scanFrom {n : Nat} {c : Cursor} {src : Text} {t : Token}
    (h : .leaf t ∈ (Lexeme.scanFrom n c src).1) :
    (∀ f cs, t ≠ .group f cs) ∧ ∀ b ∈ t.space, Shape.isSpace b = true := by
  induction n generalizing c src with
  | zero => cases h
  | succ n ih =>
    unfold Lexeme.scanFrom at h
    dsimp only at h
    split at h
    · cases h
    · split at h
      · rcases List.mem_cons.mp h with h | h
        · cases h
        · exact ih h
      · split at h
        · rcases List.mem_cons.mp h with h | h
          · cases h
          · exact ih h
        · split at h
          · cases h
          · rename_i s len _
            rcases List.mem_cons.mp h with h | h
            · cases h
              refine ⟨fun f cs => by cases s <;> simp [Shape.token], ?_⟩
              rw [Shape.token_space]
              exact List.all_eq_true.mp List.all_takeWhile
            · exact ih h

/-- A source without markers and without white space before `>` has static tokens. -/
theorem static_of_lex {src : Text} {tokens : List Token} {trailing : Text} (hat : 0x40 ∉ src)
    (hgt : ∀ b, Shape.isSpace b = true → ¬[b, 0x3E] <:+: src)
    (h : lex src = .ok (tokens, trailing)) : Static tokens := by
  have hsrc : sourceWithSpace tokens <:+: src := by
    have hs : Lexeme.unmarked src <:+: src := by
      rw [Lexeme.unmarked_eq]
      split
      · exact (List.drop_suffix 3 src).isInfix
      · exact List.infix_rfl
    rw [← lex_unmarked h] at hs
    exact (List.prefix_append _ trailing).isInfix.trans hs
  intro p hp
  have hspelled := hp.source.trans hsrc
  constructor
  · intro hc
    refine hat (hspelled.subset (List.mem_append_right _ ?_))
    rw [source, hc]
    decide
  · intro hc
    have hleaf : ∀ b ∈ p.space, Shape.isSpace b = true := by
      unfold lex at h
      dsimp only at h
      rcases inside_of_nest h (fun f cs hm => (leaf_of_scanFrom hm).1 f cs rfl) hp with hm | hm | hm
      · exact (leaf_of_scanFrom hm).2
      · cases hm with
        | here hm => cases hm
        | within hm => cases hm
      · obtain ⟨g, hg, -⟩ := hm
        cases hg
    rcases List.eq_nil_or_concat p.space with hs | ⟨before, b, hs⟩
    · exact hs
    · refine (hgt b (hleaf b (by simp [hs])) (List.IsInfix.trans ?_ hspelled)).elim
      refine ⟨before, [], ?_⟩
      simp only [Token.space, source, hs, hc]
      simp
      decide

end Token
end Atmark
