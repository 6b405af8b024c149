import Atmark.Proofs.Parse.Attributes

/-! Static markup is kept. While markup without markers is read, what is written and what is still to be
read spell the same text all along (`State.Reads`): elements, comments, groups and stray characters take
their tokens and write what these spell. One turn of the loop keeps this, and so do all (`loop_reading`). -/
namespace Atmark
open Node ParseM Token

/-! ## Elements -/

/-- What a closing tag that is given back spells. -/
def ClosingTag.text : Option ClosingTag → Text
  | none => []
  | some c => utf8 "</" ++ c.name ++ utf8 ">"

/-- From `s` to `s'` the region gets what was read, up to the closing tag that is given back. -/
structure State.Reads (s : State) (c : Option ClosingTag) (s' : State) : Prop where
  static : Token.Static s'.stream.rest
  wrote : ∃ x, s.Wrote x s' ∧ ((∀ n ∈ s'.sink, n.Faithful) →
    x ++ ClosingTag.text c ++ sourceWithSpace s'.stream.rest = sourceWithSpace s.stream.rest)

namespace State.Reads
variable {s s₁ s' : State} {c : Option ClosingTag}

theorem of_took {x : Text} {us : List Token} (h : s.Took x us s') (hus : Token.Static us)
    (hx : (∀ n ∈ s'.sink, n.Faithful) →
      x ++ ClosingTag.text c ++ sourceWithSpace us = sourceWithSpace s.stream.rest) :
    s.Reads c s' :=
  ⟨h.rest ▸ hus, x, h.toWrote, h.rest ▸ hx⟩

theorem trans (h : s.Reads none s₁) (h' : s₁.Reads c s') : s.Reads c s' := by
  obtain ⟨x, hx, hspell⟩ := h.wrote
  obtain ⟨y, hy, hspell'⟩ := h'.wrote
  refine ⟨h'.static, x ++ y, hx.trans hy, fun hf => ?_⟩
  rw [← hspell (hy.before (fun _ => faithful_of_isText) hf), ← hspell' hf]
  simp [ClosingTag.text]

/-- Steps that leave the tokens and the region as they are come first. -/
theorem after {ts : List Token} (h : s.Took [] ts s₁) (hts : s.stream.rest = ts)
    (h' : s₁.Reads c s') : s.Reads c s' := by
  obtain ⟨y, hy, hspell⟩ := h'.wrote
  refine ⟨h'.static, y, h.toWrote.trans hy, fun hf => ?_⟩
  rw [hspell hf, h.rest, hts]

theorem toStatic (h : s.Reads c s') (hs : s.Static) : s'.Static := by
  obtain ⟨x, hx, -⟩ := h.wrote
  exact hx.static hs h.static

end State.Reads

/-- From static markup the step reads up to its end or to a closing tag. -/
def ParseM.Reading (m : ParseM (Option ClosingTag)) : Prop :=
  ∀ s c s', s.Static → Returns m s c s' → s.Reads c s' ∧ (c = none → s'.stream.rest = [])

theorem Tools.parse_reading {t : Tools} (ht : Reading t.resume) : Reading t.parse := by
  intro s c s' hs h
  obtain ⟨_, s₁, hstop, h₁⟩ := h.bind
  have hs₁ := hstop.checkStop_took
  obtain ⟨hreads, hend⟩ := ht s₁ c s' (hs₁.static hs (hs₁.rest ▸ hs.rest)) h₁
  exact ⟨hreads.after hs₁ rfl, hend⟩

namespace Registry
variable {r : Registry} {t : Tools} {s s' : State} {u : Unit} {name : Text}

/-- A closing tag is given back after its white space. -/
theorem closing_reads {tok slash : Token} {ts : List Token} {c : Option ClosingTag}
    {pos : Option Position} (hs : s.Static) (hrest : s.stream.rest = tok :: slash :: ts)
    (htok : tok.isPunct '<' = true) (hslash : slash.isPunct '/' = true) (hg : slash.glued = true)
    (hname : ∀ t ∈ ts.head?, t.glued = true)
    (h : Returns (do emitText tok.space pos; return some (← closingTag)) s c s') :
    s.Reads c s' ∧ c ≠ none := by
  obtain ⟨_, s₁, htext, h₁⟩ := h.bind
  have hs₁ := htext.emitText_took hs.trimLine
  rw [hrest] at hs₁
  obtain ⟨tag, s₂, hclose, h₂⟩ := h₁.bind
  obtain ⟨us, hs₂, hus, hspell⟩ := closingTag_took hs₁.rest (hrest ▸ hs.rest).tail.tail hname hclose
  obtain ⟨rfl, rfl⟩ := h₂.pure
  refine ⟨.of_took (hs₁.trans hs₂) hus fun _ => ?_, by simp⟩
  have hsp : slash.space = [] := by simpa [Token.glued] using hg
  rw [hrest, sourceWithSpace, sourceWithSpace, isPunct_source htok, isPunct_source hslash, hsp, ← hspell]
  simp [ClosingTag.text, utf8]

theorem glued_of_closesRawText {ts : List Token} (h : closesRawText name ts = true) :
    ∃ slash us, ts = slash :: us ∧ slash.isPunct '/' = true ∧ slash.glued = true ∧
      ∀ t ∈ us.head?, t.glued = true := by
  match ts, h with
  | a :: b :: us, h =>
    simp only [closesRawText, Bool.and_eq_true] at h
    exact ⟨a, b :: us, rfl, h.1.1.1, h.1.1.2, by simpa using h.1.2⟩

theorem rawTextWithin_reading {n : Nat} : Reading (r.rawTextWithin t name n) := by
  induction n with
  | zero => exact fun _ _ _ _ h => h.throw.elim
  | succ n ih =>
    intro s c s' hs h
    obtain ⟨s₁, hs₁, h₁⟩ := h.look_took
    cases hr : s.stream.rest with
    | nil =>
      rw [hr] at h₁ hs₁
      obtain ⟨rfl, rfl⟩ := h₁.pure
      exact ⟨.of_took hs₁ (hr ▸ hs.rest) fun _ => hr ▸ rfl, fun _ => hs₁.rest⟩
    | cons tok ts =>
      rw [hr] at h₁ hs₁
      have hstatic : Token.Static (tok :: ts) := hr ▸ hs.rest
      obtain ⟨_, s₃, hlast, h₃⟩ := h₁.bind
      have hs₃ := hlast.setLast_took
      rw [hs₁.rest] at hs₃
      have hs₀ := hs₁.trans hs₃
      have hstat₃ : s₃.Static := hs₀.static hs (hs₀.rest ▸ hstatic)
      split at h₃
      · rename_i hclose
        obtain ⟨htok, hraw⟩ := Bool.and_eq_true_iff.mp hclose
        obtain ⟨slash, us, rfl, hslash, hg, hname⟩ := glued_of_closesRawText hraw
        obtain ⟨hreads, hsome⟩ := closing_reads hstat₃ hs₀.rest htok hslash hg hname h₃
        exact ⟨hreads.after hs₀ hr, fun hc => (hsome hc).elim⟩
      · split at h₃
        · rename_i hat
          rw [hstatic.not_marker (.head _)] at hat
          cases hat
        · obtain ⟨_, s₄, hskip, h₄⟩ := h₃.bind
          have hs₄ := hskip.skip_took
          rw [hs₀.rest] at hs₄
          obtain ⟨_, s₅, htext, h₅⟩ := h₄.bind
          have hs₅ := htext.emitText_took ((hs₀.trans hs₄).static hs (hs₄.rest ▸ hstatic.tail)).trimLine
          rw [hs₄.rest] at hs₅
          have htook := hs₀.trans (hs₄.trans hs₅)
          have hread : s.Reads none s₅ := by
            refine .of_took htook hstatic.tail fun _ => ?_
            simp [hr, sourceWithSpace, ClosingTag.text]
          obtain ⟨hreads, hend⟩ := ih s₅ c s' (hread.toStatic hs) h₅
          exact ⟨hread.trans hreads, hend⟩

theorem content_reading (ht : Reading t.resume) : Reading (r.content t name) := by
  unfold content
  split
  · exact rawTextWithin_reading
  · exact Tools.parse_reading ht

/-- The children of an element and its closing tag are read from what they spell. -/
theorem children_took {ns : List Node} {c : Option ClosingTag} (ht : Reading t.resume) (hs : s.Static)
    (h : Returns (r.children t name) s (ns, c) s') :
    ∃ us, s.Took [] us s' ∧ Token.Static us ∧ (∀ n ∈ ns, (n.isText || n.isTagPart) = true) ∧
      ((∀ n ∈ ns, n.Faithful) → ns.flatMap Node.markup ++ ClosingTag.text c ++ sourceWithSpace us =
        sourceWithSpace s.stream.rest) := by
  rw [children_eq] at h
  obtain ⟨outer, s₀, hget, h₀⟩ := h.bind
  obtain ⟨rfl, rfl⟩ := hget.get
  obtain ⟨_, s₁, hset, h₁⟩ := h₀.bind
  have hs₁ := hset.set
  obtain ⟨closing, s₂, hinner, h₂⟩ := h₁.bind
  obtain ⟨inner, s₃, hget₃, h₃⟩ := h₂.bind
  obtain ⟨rfl, rfl⟩ := hget₃.get
  obtain ⟨_, s₄, hset₄, h₄⟩ := h₃.bind
  obtain ⟨heq, rfl⟩ := h₄.pure
  cases heq
  have hs₄ := hset₄.set
  have hstat : s₁.Static := by
    subst hs₁
    exact ⟨rfl, hs.broken, hs.trimLine, hs.rest⟩
  have hreads := (content_reading ht s₁ c s₃ hstat hinner).1
  obtain ⟨x, hx, hspell⟩ := hreads.wrote
  -- The region inside began empty, so all that it holds was written there.
  subst hs₁ hs₄
  have htext : s₃.sink.reverse.flatMap Node.markup = x := hx.text
  refine ⟨s₃.stream.rest, ⟨.of_eq rfl hx.broken hx.trimLine rfl, rfl⟩, hreads.static, ?_, ?_⟩
  · intro n hn
    rcases hx.added n (List.mem_reverse.mp hn) with hn | hn
    · cases hn
    · exact hn
  · intro hf
    rw [htext]
    exact hspell fun n hn => hf n (List.mem_reverse.mpr hn)

theorem tagNodes_default (hr : r.tagHooks = []) (c : TagContext) : r.tagNodes c = pure c.default := by
  simp [tagNodes, hr]

theorem elementNodes_default (hr : r.elementHooks = []) (c : ElementContext) :
    r.elementNodes c = pure c.default := by
  simp [elementNodes, hr]

/-- The nodes of an opening tag spell it. -/
theorem opening_spells {start close : Node} {reading : TagReading} {e : TagEnd} {ts us : List Token}
    (hends : Tools.Ends {} s reading e us s')
    (hname : name ++ sourceWithSpace s.stream.rest = sourceWithSpace ts)
    (hstart : start.isTagPart = true) (hclose : close.isTagPart = true)
    (hs : start.markup = utf8 "<" ++ name) (hc : close.markup = e.text) :
    (∀ n ∈ start :: reading.nodes.reverse ++ [close], (n.isText || n.isTagPart) = true) ∧
      ((∀ n ∈ start :: reading.nodes.reverse ++ [close], n.Faithful) →
        (start :: reading.nodes.reverse ++ [close]).flatMap Node.markup ++ sourceWithSpace us =
          utf8 "<" ++ sourceWithSpace ts) := by
  constructor
  · intro n hn
    simp only [List.cons_append, List.mem_cons, List.mem_append, List.mem_reverse,
      List.not_mem_nil, or_false] at hn
    rcases hn with rfl | hn | rfl
    · simp [hstart]
    · rcases hends.added n hn with hn | hn
      · cases hn
      · simp [hn]
    · simp [hclose]
  · intro hf
    have hattrs := hends.text fun n hn => hf n (by simp [hn])
    have hread : TagReading.text {} = [] := rfl
    rw [hread, List.nil_append] at hattrs
    rw [← hname, ← hattrs]
    simp [hs, hc]

/-- An element after `<` is written as it was read. -/
theorem element_took {lt : Punct} {ts : List Token} (hr : r.tagHooks = [])
    (hr' : r.elementHooks = []) (ht : Reading t.resume) (hs : s.Static)
    (hrest : s.stream.rest = .punct lt :: ts) (hg : ∀ t ∈ ts.head?, t.glued = true)
    (h : Returns (r.element t lt) s u s') :
    ∃ x us, s.Took x us s' ∧ Token.Static us ∧ ((∀ n ∈ s'.sink, n.Faithful) →
      x ++ sourceWithSpace us = utf8 "<" ++ sourceWithSpace ts) := by
  unfold element at h
  simp only [tagNodes_default hr, elementNodes_default hr'] at h
  obtain ⟨_, s₁, hskip, h₁⟩ := h.bind
  have hs₁ := hskip.skip_took
  rw [hrest] at hs₁
  obtain ⟨rest, s₂, hrest₂, h₂⟩ := h₁.bind
  obtain ⟨rfl, rfl⟩ := hrest₂.rest
  rw [hs₁.rest] at h₂
  simp only [List.drop_succ_cons, List.drop_zero] at h₂ hs₁
  obtain ⟨_, s₃, hskip₃, h₃⟩ := h₂.bind
  have hs₃ := hskip₃.skip_took
  rw [hs₁.rest] at hs₃
  have hname := tagName_spells hg
  rw [← hs₃.rest] at hname
  generalize hn : tagName (tagNameTokens ts) = name at h₃ hname
  obtain ⟨⟨reading, stop⟩, s₄, hattrs, h₄⟩ := h₃.bind
  have hstatic : Token.Static s₃.stream.rest := hs₃.rest ▸ (hrest ▸ hs.rest).tail.drop _
  obtain ⟨us, hends⟩ := Tools.attributes_ends hstatic hattrs
  have hs₄ := hs₁.trans (hs₃.trans hends.took)
  have hstat₄ : s₄.Static := hs₄.static hs (hs₄.rest ▸ hends.static)
  obtain ⟨opening, s₅, hopening, h₅⟩ := h₄.bind
  obtain ⟨hopen, rfl⟩ := hopening.pure
  have hparts : (∀ n ∈ opening, (n.isText || n.isTagPart) = true) ∧
      ((∀ n ∈ opening, n.Faithful) →
        opening.flatMap Node.markup ++ sourceWithSpace us = utf8 "<" ++ sourceWithSpace ts) := by
    rw [hopen]
    refine opening_spells hends hname ?_ ?_ ?_ ?_
    · split <;> rfl
    · split
      · rfl
      · split <;> rfl
    · split <;> rfl
    · split
      · rfl
      · split <;> simp [Node.markup, TagEnd.text, *]
  obtain ⟨hkind, hspell⟩ := hparts
  split at h₅
  · have hs' := h₅.emit_took hstat₄.trimLine hkind
    rw [hs₄.rest] at hs'
    exact ⟨_, us, hs₄.trans hs', hends.static,
      fun hf => hspell (h₅.emit_faithful hf)⟩
  · obtain ⟨⟨children, closing⟩, s₆, hchildren, h₆⟩ := h₅.bind
    obtain ⟨vs, hs₆, hvs, hkind', hspell'⟩ := children_took ht hstat₄ hchildren
    have hstat₆ : s₆.Static := hs₆.static hstat₄ (hs₆.rest ▸ hvs)
    cases closing with
    | none => exact h₆.fail.elim
    | some c =>
      dsimp only at h₆
      split at h₆
      · obtain ⟨_, _, hfail, -⟩ := h₆.bind
        exact hfail.fail.elim
      · obtain ⟨_, s₇, hend, h₇⟩ := h₆.bind
        obtain ⟨rfl, rfl⟩ := hend.pure
        obtain ⟨nodes, s₈, hnodes, h₈⟩ := h₇.bind
        obtain ⟨hdefault, rfl⟩ := hnodes.pure
        obtain rfl : nodes = opening ++ children ++ [.tagEnd c.pos c.name c.tokens] := hdefault
        have hall : ∀ n ∈ opening ++ children ++ [.tagEnd c.pos c.name c.tokens],
            (n.isText || n.isTagPart) = true := by
          intro n hn
          simp only [List.mem_append, List.mem_singleton] at hn
          rcases hn with (hn | hn) | rfl
          · exact hkind n hn
          · exact hkind' n hn
          · rfl
        have hs' := h₈.emit_took hstat₆.trimLine hall
        rw [hs₆.rest] at hs'
        refine ⟨_, vs, hs₄.trans (hs₆.trans hs'), hvs, fun hf => ?_⟩
        have hfaithful := h₈.emit_faithful hf
        have hopen := hspell fun n hn => hfaithful n (by simp [hn])
        have hrest := hspell' fun n hn => hfaithful n (by simp [hn])
        rw [← hopen, ← hs₄.rest, ← hrest]
        simp [Node.markup, ClosingTag.text]

theorem exists_glued {ts : List Token} {p : Token → Bool}
    (h : (ts.head?.filter Token.glued).any p = true) :
    ∃ t us, ts = t :: us ∧ t.glued = true ∧ p t = true := by
  cases ts with
  | nil => cases h
  | cons t us =>
    cases hg : t.glued with
    | false => simp [Option.filter, hg] at h
    | true => exact ⟨t, us, rfl, hg, by simpa [Option.filter, hg] using h⟩

/-- What `<` starts is written as it was read. -/
theorem tagEntry_reads {lt : Punct} {ts : List Token} {c : Option ClosingTag} (hr : r.tagHooks = [])
    (hr' : r.elementHooks = []) (ht : Reading t.resume) (hs : s.Static)
    (hrest : s.stream.rest = .punct lt :: ts) (hlt : lt.char = '<')
    (h : Returns (r.tagEntry t lt ts) s c s') : s.Reads c s' := by
  have hspells : sourceWithSpace (.punct lt :: ts) = lt.space ++ utf8 "<" ++ sourceWithSpace ts := by
    simp [sourceWithSpace, source, Token.space, hlt, utf8]
  obtain ⟨_, s₁, hget, h₁⟩ := h.bind
  obtain ⟨rfl, rfl⟩ := hget.get
  simp only [hs.markup, if_true] at h₁
  split at h₁
  · rename_i hclose
    obtain ⟨hnext, hname⟩ := Bool.and_eq_true_iff.mp hclose
    obtain ⟨slash, us, rfl, hg, hslash⟩ := exists_glued hnext
    refine (closing_reads hs hrest (by simp [isPunct, hlt]) hslash hg ?_ h₁).1
    intro t htok
    rw [List.tail_cons, htok] at hname
    exact (Bool.and_eq_true_iff.mp hname).1
  · split at h₁
    · rename_i hmarks
      obtain ⟨_, s₂, hcomment, h₂⟩ := h₁.bind
      obtain ⟨rfl, rfl⟩ := h₂.pure
      obtain ⟨x, us, hs', hus, hspell⟩ := comment_took hs hrest hmarks hcomment
      refine .of_took hs' hus fun _ => ?_
      rw [ClosingTag.text, List.append_nil, hspell]
    · split at h₁
      · rename_i hnext
        obtain ⟨first, us, rfl, hg, -⟩ := exists_glued hnext
        obtain ⟨_, s₂, htext, h₂⟩ := h₁.bind
        have hs₂ := htext.emitText_took hs.trimLine
        rw [hrest] at hs₂
        obtain ⟨_, s₃, helement, h₃⟩ := h₂.bind
        obtain ⟨rfl, rfl⟩ := h₃.pure
        have hstat₂ : s₂.Static := hs₂.static hs (hs₂.rest ▸ hrest ▸ hs.rest)
        obtain ⟨x, vs, hs', hvs, hspell⟩ :=
          element_took hr hr' ht hstat₂ hs₂.rest (by simpa using hg) helement
        refine .of_took (hs₂.trans hs') hvs fun hf => ?_
        rw [hrest, hspells, ClosingTag.text, List.append_nil, List.append_assoc, hspell hf,
          List.append_assoc]
      · obtain ⟨_, s₂, hskip, h₂⟩ := h₁.bind
        have hs₂ := hskip.skip_took
        rw [hrest] at hs₂
        have hstatic : Token.Static ts := (hrest ▸ hs.rest).tail
        obtain ⟨_, s₃, htext, h₃⟩ := h₂.bind
        have hs₃ := htext.emitText_took (hs₂.static hs (hs₂.rest ▸ hstatic)).trimLine
        rw [hs₂.rest] at hs₃
        obtain ⟨rfl, rfl⟩ := h₃.pure
        refine .of_took (hs₂.trans hs₃) hstatic fun _ => ?_
        simp [hrest, hspells, ClosingTag.text]

end Registry

/-! ## The loop -/

/-- In markup a group is written as it was read. -/
theorem Tools.group_took {t : Tools} {f : Frame} {cs : List Token} {s s' : State} {u : Unit}
    (ht : Reading t.resume) (hs : s.Static) (hcs : Token.Static cs)
    (h : Returns (t.group f cs) s u s') :
    ∃ x, s.Took x s.stream.rest s' ∧
      ((∀ n ∈ s'.sink, n.Faithful) → x = f.space ++ source (.group f cs)) := by
  obtain ⟨_, s₁, hget, h₁⟩ := h.bind
  obtain ⟨rfl, rfl⟩ := hget.get
  simp only [hs.markup, if_true] at h₁
  obtain ⟨_, s₂, hopen, h₂⟩ := h₁.bind
  have hs₂ := hopen.emitText_took hs.trimLine
  obtain ⟨outer, s₃, hget₃, h₃⟩ := h₂.bind
  obtain ⟨rfl, rfl⟩ := hget₃.get
  obtain ⟨_, s₄, hset, h₄⟩ := h₃.bind
  have hs₄ := hset.set
  subst hs₄
  obtain ⟨closing, s₅, hparse, h₅⟩ := h₄.bind
  have hstat : s₃.Static := hs₂.static hs (hs₂.rest ▸ hs.rest)
  have hstat₄ : State.Static { s₃ with stream := .ofGroup f cs } :=
    ⟨hstat.markup, hstat.broken, hstat.trimLine, hcs⟩
  obtain ⟨hreads, hend⟩ := Tools.parse_reading ht _ closing s₅ hstat₄ hparse
  obtain ⟨x, hx, hspell⟩ := hreads.wrote
  obtain ⟨_, s₆, hmod, h₆⟩ := h₅.bind
  have hs₆ := hmod.modify
  subst hs₆
  cases closing with
  | some c => exact h₆.fail.elim
  | none =>
    -- The tokens of the group come from a stream of their own, but go to the region around it.
    have hw : s₃.Took x s₃.stream.rest { s₅ with stream := s₃.stream, markup := s₃.markup } :=
      ⟨⟨rfl, hx.broken, hx.trimLine, hx.kept, hx.added, hx.text⟩, rfl⟩
    have hs' := h₆.emitText_took (hw.trimLine.trans hstat.trimLine)
    have htook := hs₂.trans (hw.trans hs')
    rw [hs₂.rest] at htook
    refine ⟨_, htook, fun hf => ?_⟩
    have hinner := hspell (hs'.before (fun _ => faithful_of_isText) hf)
    rw [hend rfl] at hinner
    have hxs : x = sourceWithSpace cs := by
      simpa [ClosingTag.text, sourceWithSpace, Stream.ofGroup] using hinner
    simp [hxs, source]

namespace Registry
variable {r : Registry} {t : Tools}

theorem goOn_returns {s s' : State} {c : Option ClosingTag} (hs : s.Static)
    (h : Returns (goOn t) s c s') : Returns t.resume s c s' := by
  obtain ⟨_, s₁, hget, h₁⟩ := h.bind
  obtain ⟨rfl, rfl⟩ := hget.get
  simpa [hs.broken] using h₁

/-- In markup a character that is no marker is text, or may start a tag. -/
theorem action_punct {p : Punct} (hat : p.char ≠ '@') (statement : Bool) :
    (Token.punct p).action true statement = if p.char = '<' then .tag p else .text := by
  simp [Token.action, hat]

/-- A turn of the loop writes what it reads. -/
theorem turn_reading (hr : r.tagHooks = []) (hr' : r.elementHooks = []) (ht : Reading t.resume) :
    Reading (r.turn t) := by
  intro s c s' hs h
  obtain ⟨s₁, hs₁, h₁⟩ := h.look_took
  cases hts : s.stream.rest with
  | nil =>
    rw [hts] at h₁ hs₁
    obtain ⟨rfl, rfl⟩ := h₁.pure
    exact ⟨.of_took hs₁ (hts ▸ hs.rest) fun _ => hts ▸ rfl, fun _ => hs₁.rest⟩
  | cons tok ts =>
    rw [hts] at h₁ hs₁
    have hstatic : Token.Static (tok :: ts) := hts ▸ hs.rest
    obtain ⟨_, s₃, hlast, h₃⟩ := h₁.bind
    have hs₃ := hlast.setLast_took
    rw [hs₁.rest] at hs₃
    have hs₀ := hs₁.trans hs₃
    have hstat₃ : s₃.Static := hs₀.static hs (hs₀.rest ▸ hstatic)
    obtain ⟨_, s₄, hget, h₄⟩ := h₃.bind
    obtain ⟨rfl, rfl⟩ := hget.get
    rw [hstat₃.markup] at h₄
    -- What is read first, and the turns after it.
    have hmore {s₅ : State} (hread : s.Reads none s₅) (h₅ : Returns (goOn t) s₅ c s') :
        s.Reads c s' ∧ (c = none → s'.stream.rest = []) := by
      obtain ⟨hreads, hend⟩ := ht s₅ c s' (hread.toStatic hs) (goOn_returns (hread.toStatic hs) h₅)
      exact ⟨hread.trans hreads, hend⟩
    have htext (htok : ∀ f cs, tok ≠ .group f cs) (h₅ : Returns (do
          skip 1
          emitText (tok.space ++ tok.brief) tok.pos
          goOn t) s₄ c s') : s.Reads c s' ∧ (c = none → s'.stream.rest = []) := by
      obtain ⟨_, s₅, hskip, h₆⟩ := h₅.bind
      have hs₅ := hskip.skip_took
      rw [hs₀.rest] at hs₅
      obtain ⟨_, s₆, hemit, h₇⟩ := h₆.bind
      have hs₆ := hemit.emitText_took (hs₅.static hstat₃ (hs₅.rest ▸ hstatic.tail)).trimLine
      rw [hs₅.rest] at hs₆
      refine hmore (.of_took (hs₀.trans (hs₅.trans hs₆)) hstatic.tail fun _ => ?_) h₇
      simp [hts, brief_eq_source htok, sourceWithSpace, ClosingTag.text]
    cases tok with
    | ident i => exact htext (by simp) h₄
    | literal l => exact htext (by simp) h₄
    | group f cs =>
      obtain ⟨_, s₅, hskip, h₅⟩ := h₄.bind
      have hs₅ := hskip.skip_took
      rw [hs₀.rest] at hs₅
      have hstat₅ : s₅.Static := hs₅.static hstat₃ (hs₅.rest ▸ hstatic.tail)
      obtain ⟨_, s₆, hgroup, h₆⟩ := h₅.bind
      obtain ⟨x, hs₆, hspell⟩ := Tools.group_took ht hstat₅ hstatic.group hgroup
      rw [hs₅.rest] at hs₆
      refine hmore (.of_took (hs₀.trans (hs₅.trans hs₆)) hstatic.tail fun hf => ?_) h₆
      simp [hts, hspell hf, sourceWithSpace, ClosingTag.text, Token.space]
    | punct p =>
      have hat : p.char ≠ '@' := (hstatic p (.here (.head _))).1
      rw [action_punct hat] at h₄
      by_cases hlt : p.char = '<'
      · simp only [hlt, if_true] at h₄
        obtain ⟨closing, s₅, hentry, h₅⟩ := h₄.bind
        have hreads := (tagEntry_reads hr hr' ht hstat₃ hs₀.rest hlt hentry).after hs₀ hts
        cases closing with
        | some tag =>
          obtain ⟨rfl, rfl⟩ := h₅.pure
          exact ⟨hreads, by simp⟩
        | none => exact hmore hreads h₅
      · simp only [hlt, if_false] at h₄
        exact htext (by simp) h₄

/-- The loop writes what it reads. -/
theorem loop_reading (hr : r.tagHooks = []) (hr' : r.elementHooks = []) (settings : Settings)
    (embed : Text → Text → ParseM Fragment) (n : Nat) : Reading (r.loop settings embed n) := by
  induction n with
  | zero => exact fun _ _ _ _ h => h.throw.elim
  | succ n ih => exact turn_reading hr hr' ih

end Registry

end Atmark
