import Atmark.Proofs.Parse.Written

/-! The attributes of a tag are read from what they spell (`attributes_ends`): the names read so far,
the name being read and the tokens still to come make up the same text all along. An equals sign leads to
a value, which is not faithful, so nothing is claimed of a tag from there on. -/
namespace Atmark
open Node ParseM Token

namespace TagReading

/-- What the name of an attribute was read from. -/
def keyText (k : AttrKey) : Text := k.space ++ (k.quoted.map (·.raw)).getD k.text

/-- What the attributes read so far, and the name being read, were read from. -/
def text (r : TagReading) : Text :=
  r.nodes.reverse.flatMap Node.markup ++ (r.key.map keyText).getD []

theorem mem_withoutValue {r : TagReading} {n : Node} (h : n ∈ r.nodes) : n ∈ r.withoutValue.nodes := by
  unfold withoutValue
  split
  · exact h
  · exact .tail _ h

theorem of_mem_withoutValue {r : TagReading} {n : Node} (h : n ∈ r.withoutValue.nodes) :
    n ∈ r.nodes ∨ n.isTagPart = true := by
  unfold withoutValue at h
  split at h
  · exact .inl h
  · rcases List.mem_cons.mp h with rfl | h
    · exact .inr rfl
    · exact .inl h

theorem withoutValue_text {r : TagReading} (h : ∀ n ∈ r.withoutValue.nodes, n.Faithful) :
    r.withoutValue.nodes.reverse.flatMap Node.markup = r.text := by
  unfold withoutValue text at *
  split at h
  · rename_i hk
    simp [hk]
  · rename_i k hk
    have hs : k.space ≠ [] := h _ (.head _)
    simp [hk, keyNode, keyText, Node.markup, Code.nameText, hs]

theorem startKey_nodes (r : TagReading) (t : Token) : (r.startKey t).nodes = r.withoutValue.nodes := by
  unfold startKey
  dsimp only
  split <;> rfl

theorem startKey_text {r : TagReading} {t : Token} (ht : ∀ f ts, t ≠ .group f ts)
    (h : ∀ n ∈ (r.startKey t).nodes, n.Faithful) :
    (r.startKey t).text = r.text ++ t.space ++ t.source := by
  rw [startKey_nodes] at h
  have hw := withoutValue_text h
  unfold text at hw ⊢
  rw [startKey_nodes, hw]
  cases t with
  | group f ts => exact (ht f ts rfl).elim
  | _ => simp [startKey, keyText, Token.space, source, brief]

theorem addKey_text {r : TagReading} {t : Token} (ht : ∀ f ts, t ≠ .group f ts)
    (h : ∀ n ∈ (r.addKey t).nodes, n.Faithful) :
    (r.addKey t).text = r.text ++ t.space ++ t.source := by
  unfold addKey at *
  split at h
  · rename_i k hk
    split at h
    · rename_i hg
      simp only [Bool.and_eq_true, Token.glued, List.isEmpty_iff, Option.isNone_iff_eq_none] at hg
      simp [hk, hg, text, keyText, brief_eq_source ht, Token.glued]
    · rename_i hg
      simp only [hg]
      exact startKey_text ht h
  · exact startKey_text ht h

theorem mem_addKey {r : TagReading} {n : Node} (t : Token) (h : n ∈ r.nodes) :
    n ∈ (r.addKey t).nodes := by
  unfold addKey
  split
  · split
    · exact h
    · rw [startKey_nodes]; exact mem_withoutValue h
  · rw [startKey_nodes]; exact mem_withoutValue h

theorem of_mem_addKey {r : TagReading} {t : Token} {n : Node} (h : n ∈ (r.addKey t).nodes) :
    n ∈ r.nodes ∨ n.isTagPart = true := by
  unfold addKey at h
  split at h
  · split at h
    · exact .inl h
    · rw [startKey_nodes] at h; exact of_mem_withoutValue h
  · rw [startKey_nodes] at h; exact of_mem_withoutValue h

end TagReading

/-- How a tag ends in the source. -/
def TagEnd.text (e : TagEnd) : Text :=
  e.space ++ utf8 (if e.slash.isSome then "/>" else ">")

namespace Tools

/-- Without a marker, the value of an attribute is read by passing over tokens. -/
theorem attrValue_took {t : Tools} {tag attr : Text} {tok : Token} {ts : List Token} {s s' : State}
    {v : AttrValue} (hm : tok.isPunct '@' = false) (h : Returns (t.attrValue tag attr tok ts) s v s') :
    ∃ k, s.Took [] (s.stream.rest.drop k) s' := by
  have hrun {a : StaticValue} {s' : State} (h : Returns (unquotedValue tok ts) s a s') :
      ∃ k, s.Took [] (s.stream.rest.drop k) s' := by
    obtain ⟨_, s₁, hskip, h₁⟩ := h.bind
    obtain ⟨-, rfl⟩ := h₁.pure
    exact ⟨_, hskip.skip_took⟩
  unfold attrValue at h
  split at h
  · obtain ⟨_, s₁, hskip, h₁⟩ := h.bind
    split at h₁ <;>
    · obtain ⟨-, rfl⟩ := h₁.pure
      exact ⟨_, hskip.skip_took⟩
  · obtain ⟨a, s₁, ha, h₁⟩ := h.bind
    obtain ⟨-, rfl⟩ := h₁.pure
    exact hrun ha
  · split at h
    · split at h
      · exact h.fail.elim
      · obtain ⟨_, s₁, hskip, h₁⟩ := h.bind
        obtain ⟨-, rfl⟩ := h₁.pure
        exact ⟨_, hskip.skip_took⟩
    split at h
    · obtain ⟨a, s₁, ha, h₁⟩ := h.bind
      obtain ⟨-, rfl⟩ := h₁.pure
      exact hrun ha
    split at h
    · rename_i hc
      simp [isPunct, hc] at hm
    split at h
    · exact h.fail.elim
    · exact h.unexpected.elim
  · exact h.unexpected.elim

/-- With the attributes `r` read at `s`, those of the whole tag are `r'`, and it ends with `e`. -/
structure Ends (r : TagReading) (s : State) (r' : TagReading) (e : TagEnd) (us : List Token)
    (s' : State) : Prop where
  took : s.Took [] us s'
  static : Token.Static us
  kept : ∀ n ∈ r.nodes, n ∈ r'.nodes
  added : ∀ n ∈ r'.nodes, n ∈ r.nodes ∨ n.isTagPart = true
  text : (∀ n ∈ r'.nodes, n.Faithful) →
    r'.nodes.reverse.flatMap Node.markup ++ e.text ++ sourceWithSpace us =
      r.text ++ sourceWithSpace s.stream.rest

section Attributes
variable {t : Tools} {lt : Option Position} {tag : Text} {n k : Nat} {r r₂ r' : TagReading}
  {e : TagEnd} {s s₁ s' : State} {tok : Token} {ts us : List Token}

/-- A token of a name is taken, and the reading that it gives goes on. -/
theorem Ends.step (hrest : s.stream.rest = tok :: ts) (hs : s.Took [] ts s₁)
    (hkept : ∀ n ∈ r.nodes, n ∈ r₂.nodes) (hadded : ∀ n ∈ r₂.nodes, n ∈ r.nodes ∨ n.isTagPart = true)
    (htext : (∀ n ∈ r₂.nodes, n.Faithful) → r₂.text = r.text ++ tok.space ++ tok.source)
    (h : Ends r₂ s₁ r' e us s') : Ends r s r' e us s' := by
  refine ⟨hs.trans h.took, h.static, fun n hn => h.kept n (hkept n hn), ?_, ?_⟩
  · intro n hn
    rcases h.added n hn with hn | hn
    · exact hadded n hn
    · exact .inr hn
  · intro hf
    rw [h.text hf, htext fun n hn => hf n (h.kept n hn), hs.rest, hrest, sourceWithSpace]
    simp

/-- The tag ends where `e` is spelled. -/
theorem Ends.last (hs : s.Took [] us s') (hstatic : Token.Static us)
    (he : e.text ++ sourceWithSpace us = sourceWithSpace s.stream.rest) :
    Ends r s r.withoutValue e us s' := by
  refine ⟨hs, hstatic, fun n => TagReading.mem_withoutValue,
    fun n => TagReading.of_mem_withoutValue, fun hf => ?_⟩
  rw [TagReading.withoutValue_text hf, List.append_assoc, he]

/-- Attributes are read from what they spell; after an equals sign a value is one of them. -/
theorem attributesWithin_ends {focus : TagFocus} (hstatic : Token.Static s.stream.rest)
    (h : Returns (t.attributesWithin lt tag n r focus) s (r', e) s') :
    ∃ us, Ends r s r' e us s' ∧ (focus ≠ .name → ∃ n ∈ r'.nodes, ¬n.Faithful) := by
  -- On the bound of the steps; each leaves another reading, and `Ends.step` puts the two together.
  induction n generalizing s r focus with
  | zero => exact h.throw.elim
  | succ n ih =>
    obtain ⟨s₁, hs₁, h₁⟩ := h.look_took
    cases hr : s.stream.rest with
    | nil =>
      rw [hr] at h₁
      exact h₁.fail.elim
    | cons tok ts =>
      rw [hr] at h₁ hs₁ hstatic
      obtain ⟨_, s₃, hlast, h₃⟩ := h₁.bind
      have hs₃ := hlast.setLast_took
      rw [hs₁.rest] at hs₃
      have hs := hs₁.trans hs₃
      -- The tokens that are passed over before reading goes on.
      have hskip {α : Type} {k : Nat} {f : ParseM α} {a : α}
          (h : Returns (do skip k; f) s₃ a s') :
          ∃ s₄, s.Took [] ((tok :: ts).drop k) s₄ ∧ Returns f s₄ a s' := by
        obtain ⟨_, s₄, hskip, h₄⟩ := h.bind
        have hs₄ := hskip.skip_took
        rw [hs₃.rest] at hs₄
        exact ⟨s₄, hs.trans hs₄, h₄⟩
      have hadd {r₂ : TagReading} (hkept : ∀ n ∈ r.nodes, n ∈ r₂.nodes)
          (hadded : ∀ n ∈ r₂.nodes, n ∈ r.nodes ∨ n.isTagPart = true)
          (htext : (∀ n ∈ r₂.nodes, n.Faithful) → r₂.text = r.text ++ tok.space ++ tok.source)
          (h : Returns (do skip 1; t.attributesWithin lt tag n r₂ .name) s₃ (r', e) s') :
          ∃ us, Ends r s r' e us s' ∧
            (TagFocus.name ≠ .name → ∃ n ∈ r'.nodes, ¬n.Faithful) := by
        obtain ⟨s₄, hs₄, h₄⟩ := hskip h
        obtain ⟨us, hus, -⟩ := ih (hs₄.rest ▸ hstatic.tail) h₄
        exact ⟨us, hus.step hr hs₄ hkept hadded htext, fun hne => (hne rfl).elim⟩
      cases focus with
      | value k equals =>
        obtain ⟨v, s₄, hv, h₄⟩ := h₃.bind
        obtain ⟨j, hs₄⟩ := attrValue_took (hstatic.not_marker (.head _)) hv
        rw [hs₃.rest] at hs₄
        obtain ⟨us, hus, -⟩ := ih (hs₄.rest ▸ hstatic.drop j) h₄
        have hmem : ∀ n ∈ v.node :: .attrEquals equals :: TagReading.keyNode k :: r.nodes,
            n ∈ r'.nodes := hus.kept
        refine ⟨us, ⟨hs.trans (hs₄.trans hus.took), hus.static, ?_, ?_, ?_⟩, ?_⟩
        · exact fun n hn => hmem n (.tail _ (.tail _ (.tail _ hn)))
        · intro n hn
          rcases hus.added n hn with hn | hn
          · simp only [TagReading.withValue, List.mem_cons] at hn
            rcases hn with rfl | rfl | rfl | hn
            · exact .inr rfl
            · exact .inr rfl
            · exact .inr rfl
            · exact .inl hn
          · exact .inr hn
        -- The value is one of the nodes now, so not all of them are faithful.
        · exact fun hf => (hf _ (hmem v.node (.head _))).elim
        · exact fun _ => ⟨v.node, hmem _ (.head _), fun hf => hf⟩
      | name =>
        cases tok with
        | group f cs => exact h₃.unexpected.elim
        | ident i =>
          exact hadd (fun n => TagReading.mem_addKey _) (fun n => TagReading.of_mem_addKey)
            (TagReading.addKey_text (by simp)) h₃
        | literal l =>
          dsimp only at h₃
          split at h₃
          · refine hadd ?_ ?_ (TagReading.startKey_text (by simp)) h₃
            · rw [TagReading.startKey_nodes]
              exact fun n => TagReading.mem_withoutValue
            · rw [TagReading.startKey_nodes]
              exact fun n => TagReading.of_mem_withoutValue
          · exact h₃.unexpected.elim
        | punct p =>
          dsimp only at h₃
          split at h₃
          · rename_i hgt
            obtain ⟨s₄, hs₄, h₄⟩ := hskip h₃
            obtain ⟨heq, rfl⟩ := h₄.pure
            cases heq
            refine ⟨_, .last hs₄ hstatic.tail ?_, fun hne => (hne rfl).elim⟩
            simp [hr, TagEnd.text, sourceWithSpace, source, Token.space, hgt, utf8]
          split at h₃
          · rename_i hslash
            split at h₃
            · rename_i hgt
              obtain ⟨s₄, hs₄, h₄⟩ := hskip h₃
              obtain ⟨heq, rfl⟩ := h₄.pure
              cases heq
              refine ⟨_, .last hs₄ (hstatic.drop 2) ?_, fun hne => (hne rfl).elim⟩
              have hmarks : gluedMarks ['>'] ts = true := by
                cases ts with
                | nil => cases hgt
                | cons gt ts => simpa [gluedMarks] using hgt
              have hspells := gluedMarks_spells hmarks
              simp only [hr, TagEnd.text, sourceWithSpace, source, Token.space, hslash]
              rw [← hspells]
              simp [utf8]
            · exact h₃.fail.elim
          split at h₃
          · split at h₃
            · exact h₃.fail.elim
            · obtain ⟨s₄, hs₄, h₄⟩ := hskip h₃
              obtain ⟨us, hus, hvalue⟩ := ih (hs₄.rest ▸ hstatic.tail) h₄
              obtain ⟨m, hm, hnot⟩ := hvalue (by simp)
              refine ⟨us, ⟨hs₄.trans hus.took, hus.static, hus.kept, hus.added, ?_⟩, ?_⟩
              · exact fun hf => (hnot (hf m hm)).elim
              · exact fun _ => ⟨m, hm, hnot⟩
          split at h₃
          · exact hadd (fun n => TagReading.mem_addKey _) (fun n => TagReading.of_mem_addKey)
              (TagReading.addKey_text (by simp)) h₃
          · exact h₃.unexpected.elim

/-- The attributes of a tag are read from what they spell. -/
theorem attributes_ends (hstatic : Token.Static s.stream.rest)
    (h : Returns (t.attributes lt tag) s (r', e) s') : ∃ us, Ends {} s r' e us s' := by
  obtain ⟨rest, s₁, hrest, h₁⟩ := h.bind
  obtain ⟨rfl, rfl⟩ := hrest.rest
  obtain ⟨us, hus, -⟩ := attributesWithin_ends hstatic h₁
  exact ⟨us, hus⟩

end Attributes

end Tools

end Atmark
