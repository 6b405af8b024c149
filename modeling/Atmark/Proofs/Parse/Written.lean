import Atmark.Proofs.Code.Markup
import Atmark.Proofs.Token.Inside

/-! What a step over static markup writes and what it leaves to be read. `Wrote` says which text the
region gained, `Took` also which tokens are left; names of tags, closing tags and comments take the
tokens that spell them. A node that adds nothing to what it was read from, and loses nothing of it, is
`Faithful`: an attribute value loses its white space, and a name without white space before it gains some. -/
namespace Atmark
open Node ParseM

/-- The node writes what it was read from. -/
def Node.Faithful : Node → Prop
  | .attrName _ space _ _ => space ≠ []
  | .attrValue .. => False
  | _ => True

/-! ## What a step writes -/

/-- From `s` to `s'` the text `x` is written to the region, and the mode stays. -/
structure State.Wrote (s : State) (x : Text) (s' : State) : Prop where
  markup : s'.markup = s.markup
  broken : s'.broken = s.broken
  trimLine : s'.trimLine = s.trimLine
  kept : ∀ n ∈ s.sink, n.isText = true ∨ n ∈ s'.sink
  added : ∀ n ∈ s'.sink, n ∈ s.sink ∨ (n.isText || n.isTagPart) = true
  text : s'.sink.reverse.flatMap Node.markup = s.sink.reverse.flatMap Node.markup ++ x

/-- Markup without markers is being read, and no line is trimmed. -/
structure State.Static (s : State) : Prop where
  markup : s.markup = true
  broken : s.broken = false
  trimLine : s.trimLine = false
  rest : Token.Static s.stream.rest

namespace State.Wrote

theorem refl (s : State) : s.Wrote [] s :=
  ⟨rfl, rfl, rfl, fun _ h => .inr h, fun _ h => .inl h, by simp⟩

theorem trans {s s₁ s₂ : State} {x y : Text} (h : s.Wrote x s₁) (h' : s₁.Wrote y s₂) :
    s.Wrote (x ++ y) s₂ := by
  refine ⟨h'.markup.trans h.markup, h'.broken.trans h.broken, h'.trimLine.trans h.trimLine, ?_, ?_, ?_⟩
  · intro n hn
    rcases h.kept n hn with ht | hn
    · exact .inl ht
    · exact h'.kept n hn
  · intro n hn
    rcases h'.added n hn with hn | ht
    · exact h.added n hn
    · exact .inr ht
  · rw [h'.text, h.text, List.append_assoc]

/-- Steps that change neither the region nor the mode write nothing. -/
theorem of_eq {s s' : State} (hm : s'.markup = s.markup) (hb : s'.broken = s.broken)
    (ht : s'.trimLine = s.trimLine) (hs : s'.sink = s.sink) : s.Wrote [] s' :=
  ⟨hm, hb, ht, fun _ h => .inr (hs ▸ h), fun _ h => .inl (hs ▸ h), by rw [hs, List.append_nil]⟩

theorem static {s s' : State} {x : Text} (h : s.Wrote x s') (hs : s.Static)
    (hr : Token.Static s'.stream.rest) : s'.Static :=
  ⟨h.markup.trans hs.markup, h.broken.trans hs.broken, h.trimLine.trans hs.trimLine, hr⟩

/-- What holds of all nodes in the end held of them before, if it holds of all texts. -/
theorem before {s s' : State} {x : Text} (h : s.Wrote x s') {p : Node → Prop}
    (hp : ∀ n, n.isText = true → p n) (hs : ∀ n ∈ s'.sink, p n) : ∀ n ∈ s.sink, p n := by
  intro n hn
  rcases h.kept n hn with ht | hn
  · exact hp n ht
  · exact hs n hn

end State.Wrote

theorem Node.faithful_of_isText {n : Node} (h : n.isText = true) : n.Faithful := by
  cases n with
  | text => trivial
  | _ => cases h

namespace State

/-- A node of the region stays, unless it is a text that another one is joined to. -/
theorem kept_pushText {s : State} {pos : Option Position} {t : Text} {n : Node} (h : n ∈ s.sink) :
    n.isText = true ∨ n ∈ (s.pushText pos t).sink := by
  unfold pushText
  split
  split
  · exact .inr h
  · split
    · rename_i hs
      rw [hs] at h
      rcases List.mem_cons.mp h with rfl | h
      · exact .inl rfl
      · exact .inr (.tail _ h)
    · exact .inr (.tail _ h)

theorem kept_push {s : State} {m n : Node} (h : n ∈ s.sink) :
    n.isText = true ∨ n ∈ (s.push m).sink := by
  cases m with
  | text pos t => exact kept_pushText h
  | _ => exact .inr (.tail _ h)

theorem kept_foldl_push {s : State} (ns : List Node) {n : Node} (h : n ∈ s.sink) :
    n.isText = true ∨ n ∈ (ns.foldl push s).sink := by
  induction ns generalizing s with
  | nil => exact .inr h
  | cons m ns ih =>
    rcases kept_push h with ht | hn
    · exact .inl ht
    · exact ih hn

/-- A node that is added stays, unless it is a text. -/
theorem mem_foldl_push {s : State} {ns : List Node} {n : Node} (h : n ∈ ns) :
    n.isText = true ∨ n ∈ (ns.foldl push s).sink := by
  induction ns generalizing s with
  | nil => cases h
  | cons m ns ih =>
    rcases List.mem_cons.mp h with rfl | h
    · cases n with
      | text => exact .inl rfl
      | _ => exact kept_foldl_push (s := s.push _) ns (.head _)
    · exact ih h

end State

theorem State.pushText_wrote {s : State} (ht : s.trimLine = false) (pos : Option Position)
    (t : Text) : s.Wrote t (s.pushText pos t) ∧ (s.pushText pos t).stream = s.stream := by
  unfold pushText
  simp only [ht, Bool.false_eq_true, if_false]
  split
  · rename_i he
    rw [List.isEmpty_iff] at he
    subst he
    exact ⟨.of_eq rfl rfl ht.symm rfl, rfl⟩
  · split
    · rename_i p before rest hs
      refine ⟨⟨rfl, rfl, ht.symm, ?_, ?_, ?_⟩, rfl⟩
      · intro n hn
        rw [hs] at hn
        rcases List.mem_cons.mp hn with rfl | hn
        · exact .inl rfl
        · exact .inr (.tail _ hn)
      · intro n hn
        rcases List.mem_cons.mp hn with rfl | hn
        · exact .inr rfl
        · exact .inl (hs ▸ .tail _ hn)
      · simp [hs, Node.markup]
    · refine ⟨⟨rfl, rfl, ht.symm, fun n hn => .inr (.tail _ hn), ?_, ?_⟩, rfl⟩
      · intro n hn
        rcases List.mem_cons.mp hn with rfl | hn
        · exact .inr rfl
        · exact .inl hn
      · simp [Node.markup]

theorem State.push_wrote {s : State} (ht : s.trimLine = false) {n : Node}
    (hn : (n.isText || n.isTagPart) = true) :
    s.Wrote n.markup (s.push n) ∧ (s.push n).stream = s.stream := by
  have hpush {n : Node} (hn : (n.isText || n.isTagPart) = true) :
      s.Wrote n.markup { s with trimLine := false, sink := n :: s.sink } := by
    refine ⟨rfl, rfl, ht.symm, fun n hn => .inr (.tail _ hn), ?_, by simp⟩
    intro m hm
    rcases List.mem_cons.mp hm with rfl | hm
    · exact .inr hn
    · exact .inl hm
  cases n with
  | text pos t => exact pushText_wrote ht pos t
  | _ => exact ⟨hpush hn, rfl⟩

theorem State.foldl_push_wrote {s : State} (ht : s.trimLine = false) {ns : List Node}
    (hn : ∀ n ∈ ns, (n.isText || n.isTagPart) = true) :
    s.Wrote (ns.flatMap Node.markup) (ns.foldl State.push s) ∧
      (ns.foldl State.push s).stream = s.stream := by
  induction ns generalizing s with
  | nil => exact ⟨.refl s, rfl⟩
  | cons n ns ih =>
    obtain ⟨h, hstream⟩ := push_wrote ht (hn n (by simp))
    obtain ⟨h', hstream'⟩ := ih (h.trimLine.trans ht) fun m hm => hn m (by simp [hm])
    exact ⟨h.trans h', hstream'.trans hstream⟩

/-- The text `x` is written, and the tokens `rest` are left. -/
structure State.Took (s : State) (x : Text) (rest : List Token) (s' : State) : Prop
    extends s.Wrote x s' where
  rest : s'.stream.rest = rest

theorem State.Took.trans {s s₁ s₂ : State} {x y : Text} {ts us : List Token} (h : s.Took x ts s₁)
    (h' : s₁.Took y us s₂) : s.Took (x ++ y) us s₂ :=
  ⟨h.toWrote.trans h'.toWrote, h'.rest⟩

namespace ParseM.Returns
variable {s s' : State} {u : Unit}

theorem skip_took {n : Nat} (h : Returns (skip n) s u s') :
    s.Took [] (s.stream.rest.drop n) s' := by
  cases h.modify
  exact ⟨.of_eq rfl rfl rfl rfl, by simp⟩

theorem setLast_took {pos : Option Position} (h : Returns (setLast pos) s u s') :
    s.Took [] s.stream.rest s' := by
  cases h.modify
  exact ⟨.of_eq rfl rfl rfl rfl, rfl⟩

theorem checkStop_took (h : Returns ParseM.checkStop s u s') : s.Took [] s.stream.rest s' := by
  obtain ⟨budget, rfl⟩ := h.checkStop
  exact ⟨.of_eq rfl rfl rfl rfl, rfl⟩

/-- The check and the look at the tokens that every turn of a loop begins with. -/
theorem look_took {α : Type} {k : List Token → ParseM α} {a : α}
    (h : Returns (do ParseM.checkStop; k (← ParseM.rest)) s a s') :
    ∃ s₁, s.Took [] s.stream.rest s₁ ∧ Returns (k s.stream.rest) s₁ a s' := by
  obtain ⟨_, s₁, hstop, h₁⟩ := h.bind
  have hs₁ := hstop.checkStop_took
  obtain ⟨rest, s₂, hrest, h₂⟩ := h₁.bind
  obtain ⟨rfl, rfl⟩ := hrest.rest
  rw [hs₁.rest] at h₂
  exact ⟨_, hs₁, h₂⟩

theorem emitText_took {t : Text} {pos : Option Position} (ht : s.trimLine = false)
    (h : Returns (emitText t pos) s u s') : s.Took t s.stream.rest s' := by
  cases h.modify
  obtain ⟨hw, hstream⟩ := State.pushText_wrote ht pos t
  exact ⟨hw, by rw [hstream]⟩

theorem emit_took {ns : List Node} (ht : s.trimLine = false)
    (hn : ∀ n ∈ ns, (n.isText || n.isTagPart) = true) (h : Returns (emit ns) s u s') :
    s.Took (ns.flatMap Node.markup) s.stream.rest s' := by
  cases h.modify
  obtain ⟨hw, hstream⟩ := State.foldl_push_wrote ht hn
  exact ⟨hw, by rw [hstream]⟩

/-- If the region writes what it was read from, so do the nodes that were added. -/
theorem emit_faithful {ns : List Node} (h : Returns (emit ns) s u s')
    (hf : ∀ n ∈ s'.sink, n.Faithful) : ∀ n ∈ ns, n.Faithful := by
  cases h.modify
  intro n hmem
  rcases State.mem_foldl_push hmem with ht | hmem
  · exact faithful_of_isText ht
  · exact hf n hmem

end ParseM.Returns

/-! ## Names of tags, closing tags and comments -/

open Token

theorem Token.brief_eq_source {t : Token} (h : ∀ f ts, t ≠ .group f ts) : t.brief = t.source := by
  cases t with
  | group f ts => exact (h f ts rfl).elim
  | _ => simp [brief, source]

theorem brief_of_continuesTagName {t : Token} (h : t.continuesTagName = true) :
    t.brief = t.source := by
  refine brief_eq_source ?_
  rintro f ts rfl
  cases h

theorem gluedTagName_spells (ts : List Token) :
    tagName (gluedTagName ts) ++ sourceWithSpace (ts.drop (gluedTagName ts).length) =
      sourceWithSpace ts := by
  induction ts with
  | nil => rfl
  | cons t ts ih =>
    unfold gluedTagName
    split
    · rename_i h
      obtain ⟨hg, hc⟩ := Bool.and_eq_true_iff.mp h
      have hs : t.space = [] := by simpa [Token.glued] using hg
      simp only [tagName, List.flatMap_cons, List.length_cons, List.drop_succ_cons, sourceWithSpace] at ih ⊢
      rw [brief_of_continuesTagName hc, List.append_assoc, ih, hs, List.nil_append]
    · rfl

/-- A name that stands right after what comes before spells its tokens. -/
theorem tagName_spells {ts : List Token} (hg : ∀ t ∈ ts.head?, t.glued = true) :
    tagName (tagNameTokens ts) ++ sourceWithSpace (ts.drop (tagNameTokens ts).length) =
      sourceWithSpace ts := by
  cases ts with
  | nil => rfl
  | cons t ts =>
    have hs : t.space = [] := by simpa [Token.glued] using hg t rfl
    simp only [tagNameTokens]
    split
    · rename_i hc
      have h := gluedTagName_spells ts
      simp only [tagName, List.flatMap_cons, List.length_cons, List.drop_succ_cons, sourceWithSpace] at h ⊢
      rw [brief_of_continuesTagName hc, List.append_assoc, h, hs, List.nil_append]
    · rfl

theorem isPunct_source {t : Token} {c : Char} (h : t.isPunct c = true) :
    t.source = String.utf8EncodeChar c := by
  cases t with
  | punct p =>
    have hc : p.char = c := by simpa [isPunct] using h
    simp [source, hc]
  | _ => cases h

/-- A closing tag takes what it spells. -/
theorem ParseM.closingTag_took {s s' : State} {c : ClosingTag} {lt slash : Token} {ts : List Token}
    (hrest : s.stream.rest = lt :: slash :: ts) (hstatic : Token.Static ts)
    (hg : ∀ t ∈ ts.head?, t.glued = true) (h : Returns closingTag s c s') :
    ∃ us, s.Took [] us s' ∧ Token.Static us ∧
      c.name ++ utf8 ">" ++ sourceWithSpace us = sourceWithSpace ts := by
  obtain ⟨first, s₁, hpeek, h₁⟩ := h.bind
  obtain ⟨rfl, rfl⟩ := hpeek.peek
  obtain ⟨_, s₂, hskip, h₂⟩ := h₁.bind
  have hs₂ := hskip.skip_took
  rw [hrest] at hs₂
  obtain ⟨rest, s₃, hrest₃, h₃⟩ := h₂.bind
  obtain ⟨rfl, rfl⟩ := hrest₃.rest
  obtain ⟨_, s₄, hskip₄, h₄⟩ := h₃.bind
  have hs₄ := hskip₄.skip_took
  rw [hs₂.rest] at hs₄ h₄
  simp only [List.drop_succ_cons, List.drop_zero] at hs₄ h₄
  obtain ⟨gt, s₅, hpeek₅, h₅⟩ := h₄.bind
  obtain ⟨rfl, rfl⟩ := hpeek₅.peek
  rw [hs₄.rest] at h₅
  have hspells := tagName_spells hg
  cases hd : ts.drop (tagNameTokens ts).length with
  | nil =>
    rw [hd] at h₅
    exact h₅.fail.elim
  | cons gt us =>
    rw [hd] at h₅ hs₄ hspells
    have hmem : gt ∈ ts := List.mem_of_mem_drop (by rw [hd]; exact .head us)
    obtain ⟨_, s₆, hskip₆, h₆⟩ := h₅.bind
    have hs₆ := hskip₆.skip_took
    rw [hs₄.rest] at hs₆
    split at h₆
    · rename_i hgt
      obtain ⟨rfl, rfl⟩ := h₆.pure
      refine ⟨us, hs₂.trans (hs₄.trans hs₆), ?_, ?_⟩
      · exact (hd ▸ hstatic.drop _ : Token.Static (gt :: us)).tail
      · rw [← hspells, sourceWithSpace, hstatic.glued hmem hgt, isPunct_source hgt]
        simp [utf8]
    · exact h₆.unexpected.elim

theorem gluedMarks_spells {cs : List Char} {ts : List Token} (h : gluedMarks cs ts = true) :
    cs.flatMap String.utf8EncodeChar ++ sourceWithSpace (ts.drop cs.length) = sourceWithSpace ts := by
  induction cs generalizing ts with
  | nil => rfl
  | cons c cs ih =>
    cases ts with
    | nil => cases h
    | cons t ts =>
      simp only [gluedMarks, Bool.and_eq_true] at h
      have hs : t.space = [] := by simpa [Token.glued] using h.1.2
      simp only [List.flatMap_cons, List.length_cons, List.drop_succ_cons, sourceWithSpace]
      rw [hs, isPunct_source h.1.1, List.append_assoc, ih h.2, List.nil_append]

theorem startsWithMarks_spells {c : Char} {cs : List Char} {t : Token} {ts : List Token}
    (h : startsWithMarks (c :: cs) (t :: ts) = true) :
    t.space ++ (c :: cs).flatMap String.utf8EncodeChar ++ sourceWithSpace (ts.drop cs.length) =
      sourceWithSpace (t :: ts) := by
  simp only [startsWithMarks, Bool.and_eq_true] at h
  rw [sourceWithSpace, isPunct_source h.1, ← gluedMarks_spells h.2]
  simp

theorem ParseM.commentFrom_took {s s' : State} {pos : Option Position} {ts : List Token} {x : Text}
    (hrest : s.stream.rest = ts) (hstatic : Token.Static ts)
    (h : Returns (commentFrom pos ts) s x s') :
    ∃ us, s.Took [] us s' ∧ Token.Static us ∧ x ++ sourceWithSpace us = sourceWithSpace ts := by
  induction ts generalizing s s' x with
  | nil =>
    obtain ⟨_, s₁, -, h₁⟩ := h.bind
    exact h₁.fail.elim
  | cons tok ts ih =>
    obtain ⟨_, s₁, hstop, h₁⟩ := h.bind
    have hs₁ := hstop.checkStop_took
    rw [hrest] at hs₁
    split at h₁
    · rename_i hmarks
      obtain ⟨_, s₂, hskip, h₂⟩ := h₁.bind
      have hs₂ := hskip.skip_took
      rw [hs₁.rest] at hs₂
      obtain ⟨rfl, rfl⟩ := h₂.pure
      exact ⟨_, hs₁.trans hs₂, hstatic.drop 3, startsWithMarks_spells hmarks⟩
    · obtain ⟨_, s₂, hskip, h₂⟩ := h₁.bind
      have hs₂ := hskip.skip_took
      rw [hs₁.rest] at hs₂
      obtain ⟨y, s₃, hmore, h₃⟩ := h₂.bind
      obtain ⟨us, hs₃, hus, hy⟩ := ih hs₂.rest hstatic.tail hmore
      obtain ⟨rfl, rfl⟩ := h₃.pure
      refine ⟨us, hs₁.trans (hs₂.trans hs₃), hus, ?_⟩
      simp [sourceWithSpace, ← hy]

/-- A comment is written as it stands. -/
theorem ParseM.comment_took {s s' : State} {u : Unit} {lt : Punct} {ts : List Token}
    (hs : s.Static) (hrest : s.stream.rest = .punct lt :: ts)
    (hmarks : startsWithMarks ['<', '!', '-', '-'] (.punct lt :: ts) = true)
    (h : Returns (comment lt) s u s') :
    ∃ x us, s.Took x us s' ∧ Token.Static us ∧
      x ++ sourceWithSpace us = sourceWithSpace s.stream.rest := by
  obtain ⟨s₀, s₁, hget, h₁⟩ := h.bind
  obtain ⟨rfl, rfl⟩ := hget.get
  obtain ⟨_, s₂, hskip, h₂⟩ := h₁.bind
  have hs₂ := hskip.skip_took
  rw [hrest] at hs₂
  obtain ⟨rest, s₃, hrest₃, h₃⟩ := h₂.bind
  obtain ⟨rfl, rfl⟩ := hrest₃.rest
  rw [hs₂.rest] at h₃
  have hstatic : Token.Static ((Token.punct lt :: ts).drop 4) := (hrest ▸ hs.rest).drop 4
  obtain ⟨body, s₄, hbody, h₄⟩ := h₃.bind
  obtain ⟨us, hs₄, hus, hb⟩ := commentFrom_took hs₂.rest hstatic hbody
  have ht : s₄.trimLine = false := ((hs₂.trans hs₄).static hs (hs₄.rest ▸ hus)).trimLine
  have hs' := h₄.emitText_took ht
  rw [hs₄.rest] at hs'
  refine ⟨_, us, hs₂.trans (hs₄.trans hs'), hus, ?_⟩
  have hb' : body ++ sourceWithSpace us = sourceWithSpace (ts.drop ['!', '-', '-'].length) := hb
  rw [hrest, ← startsWithMarks_spells hmarks, hs.markup, ← hb']
  simp [utf8, Token.space]

end Atmark
