import Atmark.Proofs.Directive.Markup
import Atmark.Proofs.Parse.Copied
import Atmark.Proofs.Parse.RawText
import Atmark.Proofs.Token.Plain

/-! A doubled marker in plain text. It stands for the character itself, unless a word ends before it: there the first
of the two is the text, and the second one is read as a marker (`Template.parse_doubled`). -/
namespace Atmark
open ParseM

namespace Token

/-- Up to its first marker a source is spelled by the tokens before that and the white space between. -/
theorem exists_marker {cs : List Char} {ts : List Token} {left : Text} (before rest : Text)
    (hts : ∀ t ∈ ts, t.IsPlain cs) (hspace : ∀ t ∈ ts, 0x40 ∉ t.space) (hleft : 0x40 ∉ left) (hbefore : 0x40 ∉ before)
    (h : sourceWithSpace ts ++ left = before ++ 0x40 :: rest) :
    ∃ us m vs, ts = us ++ m :: vs ∧ m.isPunct '@' = true ∧ sourceWithSpace us ++ m.space = before ∧
      sourceWithSpace vs ++ left = rest := by
  induction ts generalizing before with
  | nil =>
    rw [sourceWithSpace, List.nil_append] at h
    exact (hleft (by rw [h]; simp)).elim
  | cons t ts ih =>
    have ht := hts t (.head _)
    rw [sourceWithSpace, List.append_assoc] at h
    by_cases hm : t.isPunct '@' = true
    · refine ⟨[], t, ts, rfl, hm, ?_⟩
      have hsource : t.source = [0x40] := by
        rw [eq_punct hm]
        rfl
      rw [hsource, List.append_assoc] at h
      -- both are the text before the first byte of a marker
      rcases List.append_eq_append_iff.mp h with ⟨c, hc, hrest⟩ | ⟨c, hc, hrest⟩
      · cases c with
        | nil => exact ⟨by simpa [sourceWithSpace] using hc.symm, by simpa using hrest⟩
        | cons b c =>
          obtain ⟨rfl, -⟩ := List.cons.inj hrest
          exact (hbefore (by rw [hc]; simp)).elim
      · cases c with
        | nil => exact ⟨by simpa [sourceWithSpace] using hc, by simpa using hrest.symm⟩
        | cons b c =>
          obtain ⟨rfl, -⟩ := List.cons.inj hrest
          exact (hspace t (.head _) (by rw [hc]; simp)).elim
    · have hown : (0x40 : UInt8) ∉ t.space ++ t.source := by
        intro hmem
        rcases List.mem_append.mp hmem with hmem | hmem
        · exact hspace t (.head _) hmem
        · exact hm (ht.isPunct_of_mem hmem)
      have hmore (more : Text) (hmore : before = t.space ++ t.source ++ more)
          (hrest : sourceWithSpace ts ++ left = more ++ 0x40 :: rest) :
          ∃ us m vs, t :: ts = us ++ m :: vs ∧ m.isPunct '@' = true ∧ sourceWithSpace us ++ m.space = before ∧
            sourceWithSpace vs ++ left = rest := by
        have hfree : (0x40 : UInt8) ∉ more := fun hmem => hbefore (by rw [hmore]; exact List.mem_append_right _ hmem)
        obtain ⟨us, m, vs, rfl, hm', hus, hvs⟩ := ih more (fun u hu => hts u (.tail _ hu)) (fun u hu => hspace u (.tail _ hu))
          hfree hrest
        exact ⟨t :: us, m, vs, rfl, hm', by rw [sourceWithSpace, hmore, ← hus]; simp, hvs⟩
      rcases List.append_eq_append_iff.mp h with ⟨c, hc, hrest⟩ | ⟨c, hc, hrest⟩
      · exact hmore c hc hrest
      · cases c with
        | nil => exact hmore [] (by simpa using hc.symm) (by simpa using hrest.symm)
        | cons b c =>
          obtain ⟨rfl, -⟩ := List.cons.inj hrest
          exact (hown (by rw [hc]; simp)).elim

/-- In markup the token is text. -/
def isPlainText : Token → Bool
  | .group .. => false
  | .punct p => p.char ≠ '@' && p.char ≠ '<'
  | _ => true

theorem action_of_isPlainText {t : Token} (h : t.isPlainText = true) (statement : Bool) : t.action true statement = .text := by
  cases t with
  | ident | literal => rfl
  | group => cases h
  | punct p =>
    simp only [isPlainText, Bool.and_eq_true, decide_eq_true_eq] at h
    simp [action, h.1, h.2]

theorem IsPlain.isPlainText {cs : List Char} {t : Token} (h : t.IsPlain cs) (hcs : '<' ∉ cs)
    (hm : t.isPunct '@' = false) : t.isPlainText = true := by
  obtain ⟨s, rest, hitems, -, -, -, hchar⟩ := h
  cases t with
  | ident | literal => rfl
  | group => simp [items] at hitems
  | punct p =>
    obtain ⟨-, hs, -⟩ := Item.leaf.inj (List.singleton_inj.mp hitems)
    have hlt : p.char ≠ '<' := by
      rintro hlt
      exact hcs (hchar '<' (by rw [← hs, hlt]))
    have hat : p.char ≠ '@' := by simpa [isPunct] using hm
    simp [Token.isPlainText, hlt, hat]

/-- The tokens of two markers next to each other, with text before and after them. -/
structure Doubled (before after : Text) (ts : List Token) (m m' : Token) (us : List Token) (left : Text) : Prop where
  first : m.isPunct '@' = true
  second : m'.isPunct '@' = true
  blank : Item.Blank m.space
  glued : m'.space = []
  textBefore : ∀ t ∈ ts, t.isPlainText = true
  textAfter : ∀ t ∈ us, t.isPlainText = true
  spellsBefore : sourceWithSpace ts ++ m.space = before
  spellsAfter : sourceWithSpace us ++ left = after
  /-- No token stands right behind the markers if white space does. -/
  apart : after.head?.all Shape.isSpace = true → us.head?.any Token.glued = false

/-- Text that has two markers next to each other and no other ones has these tokens. -/
theorem lex_doubled {cs ds : List Char} (hcs : ∀ c ∈ cs, c ∉ Text.marks) (hds : ∀ d ∈ ds, d ∉ Text.marks) :
    ∃ ts m m' us left, lex (Text.ofRunes cs ++ utf8 "@@" ++ Text.ofRunes ds) = .ok (ts ++ m :: m' :: us, left) ∧
      Doubled (Text.ofRunes cs) (Text.ofRunes ds) ts m m' us left := by
  have hfree {cs : List Char} (hcs : ∀ c ∈ cs, c ∉ Text.marks) : (0x40 : UInt8) ∉ Text.ofRunes cs :=
    fun hmem => hcs _ (Text.mem_of_mem_ofRunes (by decide) hmem) (by decide)
  have hsource : Text.ofRunes cs ++ utf8 "@@" ++ Text.ofRunes ds = Text.ofRunes (cs ++ ['@', '@'] ++ ds) := by
    simp [Text.ofRunes, utf8]
  have hmember {c : Char} (hc : c ∈ cs ++ ['@', '@'] ++ ds) : c = '@' ∨ c ∉ Text.marks := by
    simp only [List.mem_append, List.mem_cons, List.not_mem_nil, or_false, or_self] at hc
    rcases hc with (hc | hc) | hc
    · exact .inr (hcs c hc)
    · exact .inl hc
    · exact .inr (hds c hc)
  have hbrackets : ∀ c ∈ cs ++ ['@', '@'] ++ ds, c ∉ Text.brackets := by
    intro c hc hbracket
    rcases hmember hc with rfl | hmark
    · exact absurd hbracket (by decide)
    · exact hmark (.tail _ (.tail _ hbracket))
  have hlt : '<' ∉ cs ++ ['@', '@'] ++ ds := by
    intro hc
    rcases hmember hc with hat | hmark
    · cases hat
    · exact hmark (by decide)
  obtain ⟨all, left, hlex, hplain⟩ := lex_plain hbrackets
  have hspaces : ∀ t ∈ all, (0x40 : UInt8) ∉ t.space := by
    intro t ht hmem
    obtain ⟨_, _, -, hspace, -⟩ := hplain t ht
    exact absurd (hspace _ hmem) (by decide)
  have hleft : (0x40 : UInt8) ∉ left := fun hmem => absurd ((reads_of_lex hlex).2 _ hmem) (by decide)
  have hspelled := lex_unmarked hlex
  rw [unmarked_plain hbrackets, ← hsource, List.append_assoc] at hspelled
  obtain ⟨ts, m, rest, rfl, hm, hts, hrest⟩ :=
    exists_marker (Text.ofRunes cs) (0x40 :: Text.ofRunes ds) hplain hspaces hleft (hfree hcs) hspelled
  obtain ⟨vs, m', us, rfl, hm', hvs, hus⟩ :=
    exists_marker [] (Text.ofRunes ds) (fun t ht => hplain t (by simp [ht])) (fun t ht => hspaces t (by simp [ht]))
      hleft (by simp) hrest
  obtain ⟨hvs, hspace⟩ := List.append_eq_nil_iff.mp hvs
  obtain rfl : vs = [] := by
    cases vs with
    | nil => rfl
    | cons v vs =>
      rw [sourceWithSpace, List.append_eq_nil_iff, List.append_eq_nil_iff] at hvs
      obtain ⟨b, r, hsource, -⟩ := (hplain v (by simp)).exists_source
      rw [hsource] at hvs
      cases hvs.1.2
  have htext {us : List Token} {es : List Char} {after : Text}
      (hplain : ∀ u ∈ us, u.IsPlain (cs ++ ['@', '@'] ++ ds)) (hes : ∀ e ∈ es, e ∉ Text.marks)
      (h : sourceWithSpace us ++ after = Text.ofRunes es) : ∀ u ∈ us, u.isPlainText = true := by
    intro u hu
    refine (hplain u hu).isPlainText hlt ?_
    by_contra hm
    have hsource : u.source = [0x40] := by
      rw [eq_punct (show u.isPunct '@' = true by simpa using hm)]
      rfl
    obtain ⟨as, bs, rfl⟩ := List.append_of_mem hu
    refine hfree hes ?_
    rw [← h, sourceWithSpace_append, sourceWithSpace, hsource]
    simp
  rw [← hsource] at hlex
  refine ⟨ts, m, m', us, left, hlex, {
    first := hm
    second := hm'
    blank := ?_
    glued := hspace
    textBefore := htext (fun t ht => hplain t (by simp [ht])) hcs hts
    textAfter := htext (fun t ht => hplain t (by simp [ht])) hds hus
    spellsBefore := hts
    spellsAfter := hus
    apart := fun hblank => ?_ }⟩
  · obtain ⟨_, _, -, hblank, -⟩ := hplain m (by simp)
    exact hblank
  · cases us with
    | nil => rfl
    | cons u us =>
      obtain ⟨b, more, hb, hunblank⟩ := (hplain u (by simp)).exists_source
      by_contra hglued
      have hspace : u.space = [] := by simpa [Token.glued] using hglued
      rw [← hus, sourceWithSpace, hspace, hb] at hblank
      simp [hunblank] at hblank

/-- A word ends before the first marker if one ends at the end of the text. -/
theorem Doubled.word {before after left : Text} {ts us : List Token} {m m' : Token}
    (h : Doubled before after ts m m' us left) :
    (m.glued && (sourceWithSpace ts).getLast?.any Node.isWordByte) = before.getLast?.any Node.isWordByte := by
  rw [← h.spellsBefore]
  cases hspace : m.space with
  | nil => simp [Token.glued, hspace]
  | cons b space =>
    obtain ⟨c, hc⟩ : ∃ c, (b :: space).getLast? = some c := by simp [List.getLast?_cons]
    have hblank : Shape.isSpace c = true := h.blank c (hspace ▸ List.mem_of_getLast? hc)
    have hword : Node.isWordByte c = false := by
      simp only [Shape.isSpace, Text.isIndent, Text.isLineBreak, Bool.or_eq_true, decide_eq_true_eq] at hblank
      rcases hblank with (rfl | rfl) | rfl | rfl <;> rfl
    rw [List.getLast?_append, hc]
    simp [Token.glued, hspace, hword]

theorem length_le_weights (ts : List Token) : ts.length ≤ weights ts := by
  induction ts with
  | nil => exact Nat.le_refl 0
  | cons t ts ih =>
    have hweight : 0 < t.weight := by cases t <;> simp [weight]
    rw [List.length_cons, weights]
    omega

end Token

/-! ## Regions of plain text -/

/-- The nodes are one text, or none if the text is empty. -/
def Node.Only (text : Text) (ns : List Node) : Prop :=
  (text = [] ∧ ns = []) ∨ (text ≠ [] ∧ ∃ pos, ns = [.text pos text])

theorem Node.Only.reverse {text : Text} {ns : List Node} (h : Only text ns) : Only text ns.reverse := by
  rcases h with ⟨htext, rfl⟩ | ⟨htext, pos, rfl⟩
  · exact .inl ⟨htext, rfl⟩
  · exact .inr ⟨htext, pos, rfl⟩

/-- A region of markup in which nothing but this text has been read, before these tokens. -/
structure State.Plain (s : State) (w : World) (text : Text) (ts : List Token) : Prop where
  sink : Node.Only text s.sink
  rest : s.stream.rest = ts
  world : s.world = w
  markup : s.markup = true
  trimLine : s.trimLine = false
  broken : s.broken = false

namespace State.Plain
variable {s : State} {w : World} {text : Text} {ts : List Token}

theorem pushText (h : s.Plain w text ts) (pos : Option Position) (more : Text) :
    (s.pushText pos more).Plain w (text ++ more) ts := by
  have htrimmed : s.trimmed more = (more, false) := by simp [trimmed, h.trimLine]
  rw [pushText_eq, htrimmed]
  by_cases hmore : more = []
  · obtain rfl := hmore
    rw [List.append_nil]
    exact ⟨h.sink, h.rest, h.world, h.markup, rfl, h.broken⟩
  · rw [if_neg (by simpa using hmore)]
    rcases h.sink with ⟨htext, hsink⟩ | ⟨htext, p, hsink⟩
    · rw [hsink, htext]
      exact ⟨.inr ⟨hmore, pos, rfl⟩, h.rest, h.world, h.markup, rfl, h.broken⟩
    · rw [hsink]
      exact ⟨.inr ⟨by simp [htext], _, rfl⟩, h.rest, h.world, h.markup, rfl, h.broken⟩

/-- Passing over tokens leaves the text. -/
theorem skip (h : s.Plain w text ts) (n : Nat) (last : Option Position) :
    ({ s with stream := s.stream.skip n, last } : State).Plain w text (ts.drop n) :=
  ⟨h.sink, by simp [h.rest], h.world, h.markup, h.trimLine, h.broken⟩

theorem setLast (h : s.Plain w text ts) (last : Option Position) : ({ s with last } : State).Plain w text ts :=
  ⟨h.sink, h.rest, h.world, h.markup, h.trimLine, h.broken⟩

/-- The marker is in a word if the text goes up to it and ends with one. -/
theorem inWord (h : s.Plain w text ts) (m : Token) :
    (s.markup && m.glued && s.sink.head?.any Node.endsWithWord) = (m.glued && text.getLast?.any Node.isWordByte) := by
  rw [h.markup, Bool.true_and]
  rcases h.sink with ⟨rfl, hsink⟩ | ⟨-, p, hsink⟩
  · simp [hsink]
  · simp [hsink, Node.endsWithWord]

end State.Plain

namespace Registry
variable {r : Registry} {t : Tools} {s : State} {w : World} {text : Text} {ts : List Token}

/-- A token of plain text is added to the region. -/
theorem turn_text {tok : Token} (h : s.Plain w text (tok :: ts)) (hw : w.budget = none) (htok : tok.isPlainText = true) :
    ∃ u, u.Plain w (text ++ (tok.space ++ tok.source)) ts ∧ r.turn t s = t.resume u := by
  have haction (statement : Bool) : tok.action s.markup statement = .text := by
    rw [h.markup]
    exact Token.action_of_isPlainText htok statement
  have hbrief : tok.brief = tok.source := Token.brief_eq_source (by rintro f ts rfl; cases htok)
  have hu := (h.skip 1 tok.pos).pushText tok.pos (tok.space ++ tok.source)
  refine ⟨_, hu, ?_⟩
  rw [← goOn_unbroken hu.broken, ← hbrief, turn_cons r t (h.world ▸ hw) h.rest, haction]
  rfl

theorem turn_at_marker {m : Token} (h : s.Plain w text (m :: ts)) (hw : w.budget = none) (hm : m.isPunct '@' = true) :
    r.turn t s = (do
      r.marker t m
      goOn t) { s with last := m.pos } := by
  have haction (statement : Bool) : m.action s.markup statement = .marker := by
    rw [Token.eq_punct hm]
    rfl
  rw [turn_cons r t (h.world ▸ hw) h.rest, haction]
  rfl

/-- After the marker the region goes on. -/
theorem turn_of_marker {m : Token} {u : State} (h : s.Plain w text (m :: ts)) (hw : w.budget = none)
    (hm : m.isPunct '@' = true) (hmarker : Returns (r.marker t m) { s with last := m.pos } () u)
    (hu : u.broken = false) : r.turn t s = t.resume u := by
  rw [turn_at_marker h hw hm, ← goOn_unbroken hu, hmarker.bind_eq]

/-- The first of two markers stands for the character, if no word ends before it. -/
theorem turn_doubled {m m' : Token} (h : s.Plain w text (m :: m' :: ts)) (hw : w.budget = none)
    (hm : m.isPunct '@' = true) (hm' : m'.isPunct '@' = true) (hspace : m'.space = [])
    (hword : (m.glued && text.getLast?.any Node.isWordByte) = false) :
    ∃ u, u.Plain w (text ++ m.space ++ utf8 "@") ts ∧ r.turn t s = t.resume u := by
  have hbefore : State.Plain { ({ s with last := m.pos } : State).beforeMarker m with
      stream := s.stream.skip 1, last := m'.pos } w (text ++ m.space) (m' :: ts) := by
    have hpushed := (h.setLast m.pos).pushText m.pos m.space
    rw [State.beforeMarker, if_pos h.markup]
    exact ⟨hpushed.sink, by simp [h.rest], hpushed.world, hpushed.markup, hpushed.trimLine, hpushed.broken⟩
  have hu := (hbefore.skip 1 m'.pos).pushText m'.pos (utf8 "@")
  refine ⟨_, hu, turn_of_marker h hw hm ?_ hu.broken⟩
  have hglued : m'.glued = true := by simp [Token.glued, hspace]
  unfold Returns
  rw [marker_apply (s := { s with last := m.pos }) h.rest hglued ((h.inWord m).trans hword), Token.eq_punct hm']
  rfl

/-- In a word the first of two markers is text. -/
theorem turn_in_word {m : Token} (h : s.Plain w text (m :: ts)) (hw : w.budget = none) (hm : m.isPunct '@' = true)
    (hword : (m.glued && text.getLast?.any Node.isWordByte) = true) :
    ∃ u, u.Plain w (text ++ utf8 "@") ts ∧ r.turn t s = t.resume u := by
  have hu := (h.skip 1 m.pos).pushText m.pos (utf8 "@")
  refine ⟨_, hu, turn_of_marker h hw hm ?_ hu.broken⟩
  have hinside : (s.markup && m.glued && s.sink.head?.any Node.endsWithWord) = true := (h.inWord m).trans hword
  unfold Returns marker
  rw [skip_bind, get_bind, if_pos hinside]
  rfl

/-- Something has to follow the marker directly. -/
theorem turn_missing {m : Token} (h : s.Plain w text (m :: ts)) (hw : w.budget = none) (hm : m.isPunct '@' = true)
    (hword : (m.glued && text.getLast?.any Node.isWordByte) = false) (hnext : ts.head?.any Token.glued = false) :
    ∃ u, u.world = w ∧ r.turn t s = .error (Error.at? m.pos .missingExpression) u := by
  have houtside : (s.markup && m.glued && s.sink.head?.any Node.endsWithWord) = false := (h.inWord m).trans hword
  have hv := (h.skip 1 m.pos).pushText m.pos m.space
  refine ⟨_, hv.world, ?_⟩
  rw [turn_at_marker h hw hm]
  have hglued {v : State} (hv : v.stream.rest = ts) :
      r.gluedToMarker t m.pos v = .error (Error.at? m.pos .missingExpression) v := by
    unfold gluedToMarker
    rw [peek_bind, hv]
    cases ts with
    | nil => rfl
    | cons next ts =>
      have hnext' : next.glued = false := by simpa using hnext
      simp only [List.head?_cons, hnext']
      rfl
  have hmarker : r.marker t m { s with last := m.pos } = .error (Error.at? m.pos .missingExpression)
      ({ s with stream := s.stream.skip 1, last := m.pos }.pushText m.pos m.space) := by
    unfold marker
    rw [skip_bind, get_bind, if_neg (Bool.eq_false_iff.mp houtside), if_pos h.markup, emitText_bind]
    exact hglued hv.rest
  simp only [Bind.bind, EStateM.bind, hmarker]

/-! ## Sources -/

/-- The loop adds all tokens of plain text to the region. -/
theorem loop_text (settings : Settings) (embed : Text → Text → ParseM Fragment) (n : Nat) {us : List Token}
    (hts : ∀ t ∈ ts, t.isPlainText = true) (hw : w.budget = none) (h : s.Plain w text (ts ++ us)) :
    ∃ u, u.Plain w (text ++ Token.sourceWithSpace ts) us ∧
      r.loop settings embed (n + ts.length) s = r.loop settings embed n u := by
  induction ts generalizing s text with
  | nil => exact ⟨s, by simpa [Token.sourceWithSpace] using h, rfl⟩
  | cons t ts ih =>
    obtain ⟨v, hv, hturn⟩ := turn_text (r := r) (t := r.tools settings embed (n + ts.length)) h hw (hts t (.head _))
    obtain ⟨u, hu, hloop⟩ := ih (fun t ht => hts t (.tail _ ht)) hv
    refine ⟨u, by simpa [Token.sourceWithSpace] using hu, ?_⟩
    rw [← hloop, List.length_cons, ← Nat.add_assoc]
    exact hturn

end Registry

namespace Template

/-- A source whose tokens are all read is parsed as the region that they lead to, with the white space behind them. -/
theorem parse_of_returns {r : Registry} {settings : Settings} {path src left : Text} {w : World} {ts : List Token}
    (hlex : Token.lex src = .ok (ts, left)) (hw : w.budget = none) {n : Nat} {u : State}
    (hn : includeBound settings = n + 1) (hloop : Returns (r.loop settings (r.embedIn settings n [] path) (r.turns w ts))
      { world := w, path, includers := [], stream := .ofTokens ts } none u) :
    ∃ t, parse r settings path src w = .ok t u.world ∧
      t.nodes = (u.pushText (Stream.ofTokens ts).stop left).sink.reverse := by
  have hread : r.readTokens settings (r.embedIn settings n [] path) (r.turns w ts) ts left
      { world := w, path, includers := [], stream := .ofTokens ts } =
      .ok () (u.pushText (Stream.ofTokens ts).stop left) := by
    unfold Registry.readTokens
    rw [(checkStop_unlimited hw).bind_eq, hloop.bind_eq]
    rfl
  have hworld : (u.pushText (Stream.ofTokens ts).stop left).world = u.world := by
    obtain ⟨_, _, hframe⟩ := u.pushText_frame (Stream.ofTokens ts).stop left
    rw [hframe]
  have hsource : r.parseSource settings (n + 1) [] path src w =
      .ok ((u.pushText (Stream.ofTokens ts).stop left).sink.reverse,
        (u.pushText (Stream.ofTokens ts).stop left).declared) u.world := by
    rw [Registry.parseSource_lexed r settings n [] path src w hlex, WorldM.ofParse, hread]
    simp only [hworld]
  rw [← hn] at hsource
  exact ⟨_, parse_of_parseSource hsource, rfl⟩

/-- A source that is parsed is read to its end by the loop. -/
theorem loop_of_parse {r : Registry} {settings : Settings} {path src left : Text} {w w₁ : World} {ts : List Token}
    {t : Template} (hlex : Token.lex src = .ok (ts, left)) (hw : w.budget = none) {n : Nat}
    (hn : includeBound settings = n + 1) (h : parse r settings path src w = .ok t w₁) : ∃ u,
      Returns (r.loop settings (r.embedIn settings n [] path) (r.turns w ts))
        { world := w, path, includers := [], stream := .ofTokens ts } none u ∧
      t.nodes = (u.pushText (Stream.ofTokens ts).stop left).sink.reverse := by
  have hsource := parse_returns h
  rw [hn, Registry.parseSource_lexed r settings n [] path src w hlex] at hsource
  split at hsource
  · rename_i s w' hparse
    obtain ⟨hread, rfl⟩ := returns_of_ofParse hparse
    obtain ⟨hnodes, -⟩ := EStateM.Result.ok.inj hsource
    unfold Registry.readTokens at hread
    rw [Returns, (checkStop_unlimited (by exact hw)).bind_eq] at hread
    obtain ⟨closing, u, hloop, hend⟩ := Returns.bind hread
    cases closing with
    | some => exact hend.fail.elim
    | none =>
      refine ⟨u, hloop, ?_⟩
      rw [← (Prod.mk.inj hnodes).1, hend.modify]
  · cases hsource

theorem parse_of_loop {r : Registry} {settings : Settings} {path src left : Text} {w : World} {ts : List Token}
    (hlex : Token.lex src = .ok (ts, left)) (hw : w.budget = none) {n : Nat} {u : State} (hu : u.world = w)
    (hn : includeBound settings = n + 1)
    (hloop : r.loop settings (r.embedIn settings n [] path) (r.turns w ts)
      { world := w, path, includers := [], stream := .ofTokens ts } = .ok none u) :
    ∃ t, parse r settings path src w = .ok t w ∧
      t.nodes = (u.pushText (Stream.ofTokens ts).stop left).sink.reverse := by
  obtain ⟨t, hparse, hnodes⟩ := parse_of_returns hlex hw hn hloop
  rw [hu] at hparse
  exact ⟨t, hparse, hnodes⟩

theorem parse_of_loop_error {r : Registry} {settings : Settings} {path src left : Text} {w : World} {ts : List Token}
    (hlex : Token.lex src = .ok (ts, left)) (hw : w.budget = none) {n : Nat} {u : State} (hu : u.world = w)
    (hn : includeBound settings = n + 1) {pos : Option Position} {cause : Fault}
    (hloop : r.loop settings (r.embedIn settings n [] path) (r.turns w ts)
      { world := w, path, includers := [], stream := .ofTokens ts } = .error (Error.at? pos cause) u) :
    parse r settings path src w = .error (.fault path (pos.getD .zero) cause) w := by
  have hread : r.readTokens settings (r.embedIn settings n [] path) (r.turns w ts) ts left
      { world := w, path, includers := [], stream := .ofTokens ts } = .error (Error.at? pos cause) u := by
    unfold Registry.readTokens
    rw [(checkStop_unlimited hw).bind_eq]
    simp only [Bind.bind, EStateM.bind, hloop]
  have hsource : r.parseSource settings (n + 1) [] path src w = .error (.fault path (pos.getD .zero) cause) w := by
    rw [Registry.parseSource_lexed r settings n [] path src w hlex, WorldM.ofParse, hread]
    simp only [hu]
    rfl
  rw [← hn] at hsource
  unfold parse
  simp only [bind, EStateM.bind, hsource]

/-- One text is written in one call. -/
theorem ofNodes_only (settings : Settings) {text : Text} {ns : List Node} {w : World} (h : Node.Only text ns)
    (htext : text ≠ []) : ∃ code, Code.ofNodes settings ns w = .ok code w ∧
      Code.IsTextCall settings.buffer text (Code.coalesce settings.buffer code) := by
  rcases h with ⟨hempty, -⟩ | ⟨-, pos, rfl⟩
  · exact (htext hempty).elim
  · have hmarkup : ∀ n ∈ [Node.text pos text], n.isMarkup = true := by simp [Node.isMarkup]
    refine ⟨Code.lower settings.buffer [.text pos text], ?_, ?_⟩
    · simp only [Code.ofNodes, bind, EStateM.bind, Code.resolve_markup settings hmarkup]
      rfl
    · have hspelled : [Node.text pos text].flatMap Node.markup = text := by simp [Node.markup]
      rcases Code.coalesce_markup settings.buffer hmarkup with ⟨hempty, -⟩ | ⟨-, hcall⟩
      · exact (htext (hspelled.symm.trans hempty)).elim
      · rwa [hspelled] at hcall

/-- Two markers in plain text are written as one character, in one call with the text around them, if no letter, digit
or underscore stands right before them. In a word the first of them is the character and the second one is a marker,
and so has to be followed by something directly. -/
theorem parse_doubled (r : Registry) (settings : Settings) (path : Text) {cs ds : List Char} {w : World}
    (hcs : ∀ c ∈ cs, c ∉ Text.marks) (hds : ∀ d ∈ ds, d ∉ Text.marks) (hw : w.budget = none) :
    ((Text.ofRunes cs).getLast?.any Node.isWordByte = false → ∃ t code,
      parse r settings path (Text.ofRunes cs ++ utf8 "@@" ++ Text.ofRunes ds) w = .ok t w ∧
      Code.ofNodes settings t.nodes w = .ok code w ∧
      Code.IsTextCall settings.buffer (Text.ofRunes cs ++ utf8 "@" ++ Text.ofRunes ds)
        (Code.coalesce settings.buffer code)) ∧
    ((Text.ofRunes cs).getLast?.any Node.isWordByte = true → (Text.ofRunes ds).head?.all Shape.isSpace = true →
      ∃ pos, parse r settings path (Text.ofRunes cs ++ utf8 "@@" ++ Text.ofRunes ds) w =
        .error (.fault path pos .missingExpression) w) := by
  obtain ⟨ts, m, m', us, left, hlex, hdoubled⟩ := Token.lex_doubled hcs hds
  obtain ⟨k, hk⟩ : ∃ k, r.turns w (ts ++ m :: m' :: us) = k + 1 + us.length + 1 + ts.length := by
    have hturns := r.weights_lt_turns w (ts ++ m :: m' :: us)
    have hlength := Token.length_le_weights (ts ++ m :: m' :: us)
    simp only [List.length_append, List.length_cons] at hlength
    exact ⟨r.turns w (ts ++ m :: m' :: us) - (1 + us.length + 1 + ts.length), by omega⟩
  obtain ⟨n, hn⟩ : ∃ n, includeBound settings = n + 1 := ⟨_, rfl⟩
  have hstart : State.Plain { world := w, path, includers := [], stream := .ofTokens (ts ++ m :: m' :: us) } w []
      (ts ++ m :: m' :: us) := ⟨.inl ⟨rfl, rfl⟩, rfl, rfl, rfl, rfl, rfl⟩
  obtain ⟨v, hv, hbefore⟩ := Registry.loop_text (r := r) settings (r.embedIn settings n [] path)
    (k + 1 + us.length + 1) hdoubled.textBefore hw hstart
  rw [List.nil_append] at hv
  constructor
  · intro hword
    rw [← hdoubled.word] at hword
    obtain ⟨x, hx, hturn⟩ := Registry.turn_doubled (r := r)
      (t := r.tools settings (r.embedIn settings n [] path) (k + 1 + us.length)) hv hw hdoubled.first hdoubled.second
      hdoubled.glued hword
    rw [hdoubled.spellsBefore, ← List.append_nil us] at hx
    obtain ⟨u, hu, hafter⟩ := Registry.loop_text (r := r) settings (r.embedIn settings n [] path) (k + 1)
      hdoubled.textAfter hw hx
    have hloop : r.loop settings (r.embedIn settings n [] path) (r.turns w (ts ++ m :: m' :: us))
        { world := w, path, includers := [], stream := .ofTokens (ts ++ m :: m' :: us) } = .ok none u := by
      rw [hk, hbefore]
      exact hturn.trans (hafter.trans (r.turn_nil _ (hu.world ▸ hw) hu.rest))
    obtain ⟨t, hparse, hnodes⟩ := parse_of_loop hlex hw hu.world hn hloop
    have honly := (hu.pushText (Stream.ofTokens (ts ++ m :: m' :: us)).stop left).sink.reverse
    rw [← hnodes, List.append_assoc _ _ left, hdoubled.spellsAfter] at honly
    obtain ⟨code, hcode, hcall⟩ := ofNodes_only settings (w := w) honly (by simp [utf8])
    exact ⟨t, code, hparse, hcode, hcall⟩
  · intro hword hblank
    rw [← hdoubled.word] at hword
    obtain ⟨x, hx, hturn⟩ := Registry.turn_in_word (r := r)
      (t := r.tools settings (r.embedIn settings n [] path) (k + 1 + us.length)) hv hw hdoubled.first hword
    have hmark : (m'.glued && (Token.sourceWithSpace ts ++ utf8 "@").getLast?.any Node.isWordByte) = false := by
      have hlast : utf8 "@" = [0x40] := rfl
      rw [hlast, List.getLast?_concat]
      exact Bool.and_false _
    obtain ⟨u, hu, hmissing⟩ := Registry.turn_missing (r := r)
      (t := r.tools settings (r.embedIn settings n [] path) (k + us.length)) hx hw hdoubled.second hmark
      (hdoubled.apart hblank)
    have hloop : r.loop settings (r.embedIn settings n [] path) (r.turns w (ts ++ m :: m' :: us))
        { world := w, path, includers := [], stream := .ofTokens (ts ++ m :: m' :: us) } =
        .error (Error.at? m'.pos .missingExpression) u := by
      rw [hk, hbefore]
      refine hturn.trans ?_
      rw [Nat.add_right_comm k 1]
      exact hmissing
    exact ⟨_, parse_of_loop_error hlex hw hu hn hloop⟩

/-- Behind white space and behind a word. -/
theorem parse_doubled_words : (∀ c ∈ "me, ".toList, c ∉ Text.marks) ∧ (∀ c ∈ "me".toList, c ∉ Text.marks) ∧
    (∀ d ∈ " home.7".toList, d ∉ Text.marks) ∧ ({} : World).budget = none ∧
    (∃ t code, parse .standard { markdown := .ok } (utf8 "index.rhtml") (utf8 "me, @@ home.7") {} = .ok t {} ∧
      Code.ofNodes { markdown := .ok } t.nodes {} = .ok code {} ∧
      Code.IsTextCall (utf8 "html") (utf8 "me, @ home.7") (Code.coalesce (utf8 "html") code)) ∧
    ∃ pos, parse .standard { markdown := .ok } (utf8 "index.rhtml") (utf8 "me@@ home.7") {} =
      .error (.fault (utf8 "index.rhtml") pos .missingExpression) {} := by
  have hplain {cs : List Char} (h : cs.all (· ∉ Text.marks) = true) : ∀ c ∈ cs, c ∉ Text.marks := by simpa using h
  have hspaced : ∀ c ∈ "me, ".toList, c ∉ Text.marks := hplain (by decide +kernel)
  have hword : ∀ c ∈ "me".toList, c ∉ Text.marks := hplain (by decide +kernel)
  have hafter : ∀ d ∈ " home.7".toList, d ∉ Text.marks := hplain (by decide +kernel)
  obtain ⟨t, code, hparse, hcode, hcall⟩ := (parse_doubled .standard { markdown := .ok } (utf8 "index.rhtml") hspaced
    hafter (w := {}) rfl).1 (by decide +kernel)
  obtain ⟨pos, herror⟩ := (parse_doubled .standard { markdown := .ok } (utf8 "index.rhtml") hword hafter (w := {})
    rfl).2 (by decide +kernel) (by decide +kernel)
  exact ⟨hspaced, hword, hafter, rfl, ⟨t, code, hparse, hcode, hcall⟩, pos, herror⟩

end Template
end Atmark
