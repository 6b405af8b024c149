import Atmark.Proofs.Directive.Nesting
import Atmark.Proofs.Directive.Separation
import Atmark.Proofs.Parse.Closing
import Atmark.Proofs.Parse.Expression
import Atmark.Proofs.Parse.Trim
import Mathlib.Logic.Relation

/-! Raw text. It is read turn by turn (`Registry.RawTurn`): a turn reads a marker and what follows it, or copies one
token, and a group is one token. So a marker in the text itself is read like anywhere else, and one between brackets
is copied with them (`Registry.children_rawText`). -/
namespace Atmark
open Node ParseM

namespace Registry
variable {r : Registry} {t : Tools} {name : Text} {s v u : State} {c : Option ClosingTag}

/-! ## Turns -/

/-- A turn over raw text after which it goes on. The marker is read if something follows it directly; any other token
is copied, but the one that starts the closing tag. -/
inductive RawTurn (r : Registry) (t : Tools) (name : Text) : State → State → Prop
  | marker {s s₁ u : State} {m next : Token} {ts : List Token} : Returns checkStop s () s₁ →
      s.stream.rest = m :: next :: ts → m.isPunct '@' = true → next.glued = true →
      Returns (r.marker t m) { s₁ with last := m.pos } () u → RawTurn r t name s u
  | copy {s s₁ : State} {tok : Token} {ts : List Token} : Returns checkStop s () s₁ →
      s.stream.rest = tok :: ts → (tok.isPunct '<' && closesRawText name ts) = false →
      (tok.isPunct '@' && ts.head?.any Token.glued) = false →
      RawTurn r t name s
        ({ s₁ with last := tok.pos, stream := s.stream.skip 1 }.pushText tok.pos (Token.sourceWithSpace [tok]))

/-- A check leaves the stream. -/
theorem stream_of_checkStop {a : Unit} (h : Returns checkStop s a v) : v.stream = s.stream := by
  obtain ⟨_, rfl⟩ := h.checkStop
  rfl

/-- A turn of the reading at a token, after the check. -/
theorem rawTextWithin_cons {tok : Token} {ts : List Token} {n : Nat} (hcheck : Returns checkStop s () v)
    (hrest : s.stream.rest = tok :: ts) : r.rawTextWithin t name (n + 1) s =
      (if tok.isPunct '<' && closesRawText name ts then do
        emitText tok.space tok.pos
        return some (← closingTag)
      else if tok.isPunct '@' && ts.head?.any Token.glued then do
        r.marker t tok
        r.rawTextWithin t name n
      else do
        skip 1
        emitText (Token.sourceWithSpace [tok]) tok.pos
        r.rawTextWithin t name n) { v with last := tok.pos } := by
  have hv : v.stream.rest = tok :: ts := by rw [stream_of_checkStop hcheck, hrest]
  conv_lhs => unfold rawTextWithin
  rw [hcheck.bind_eq, rest_bind, hv]
  rfl

theorem rawTextWithin_marker {m next : Token} {ts : List Token} {n : Nat} (hcheck : Returns checkStop s () v)
    (hrest : s.stream.rest = m :: next :: ts) (hm : m.isPunct '@' = true) (hnext : next.glued = true) :
    r.rawTextWithin t name (n + 1) s = (do
      r.marker t m
      r.rawTextWithin t name n) { v with last := m.pos } := by
  have hlt : m.isPunct '<' = false := by
    rw [Token.eq_punct hm]
    rfl
  rw [rawTextWithin_cons hcheck hrest, hlt, hm]
  simp [hnext]

theorem rawTextWithin_copy {tok : Token} {ts : List Token} {n : Nat} (hcheck : Returns checkStop s () v)
    (hrest : s.stream.rest = tok :: ts) (hclose : (tok.isPunct '<' && closesRawText name ts) = false)
    (hmarker : (tok.isPunct '@' && ts.head?.any Token.glued) = false) :
    r.rawTextWithin t name (n + 1) s = r.rawTextWithin t name n
      ({ v with last := tok.pos, stream := s.stream.skip 1 }.pushText tok.pos (Token.sourceWithSpace [tok])) := by
  rw [rawTextWithin_cons hcheck hrest, hclose, hmarker, ← stream_of_checkStop hcheck]
  rfl

/-- After a turn the rest is read from where it led. -/
theorem RawTurn.rest_read {n : Nat} (h : r.RawTurn t name s v) (hret : Returns (r.rawTextWithin t name n) s c u) :
    ∃ k, n = k + 1 ∧ Returns (r.rawTextWithin t name k) v c u := by
  cases n with
  | zero => exact hret.throw.elim
  | succ k =>
    refine ⟨k, rfl, ?_⟩
    unfold Returns at hret
    cases h with
    | marker hcheck hrest hm hnext hmarker =>
      rw [rawTextWithin_marker hcheck hrest hm hnext] at hret
      obtain ⟨_, w, hfirst, hmore⟩ := Returns.bind hret
      obtain ⟨-, rfl⟩ := hmarker.det hfirst
      exact hmore
    | copy hcheck hrest hclose hmarker =>
      rw [rawTextWithin_copy hcheck hrest hclose hmarker] at hret
      exact hret

/-- Wherever turns lead, the rest is read from there. -/
theorem rest_read_of_turns {n : Nat} (h : Relation.ReflTransGen (r.RawTurn t name) s v)
    (hret : Returns (r.rawTextWithin t name n) s c u) : ∃ k, Returns (r.rawTextWithin t name k) v c u := by
  induction h with
  | refl => exact ⟨n, hret⟩
  | tail _ hturn ih =>
    obtain ⟨k, hk⟩ := ih
    obtain ⟨k', -, hk'⟩ := hturn.rest_read hk
    exact ⟨k', hk'⟩

/-! ## The marker -/

/-- What follows the marker is read after the white space before it, where the marker is no text. -/
theorem marker_apply {m next : Token} {ts : List Token} (hrest : s.stream.rest = m :: next :: ts)
    (hnext : next.glued = true) (hword : (s.markup && m.glued && s.sink.head?.any endsWithWord) = false) :
    r.marker t m s =
      r.afterMarker t m.pos next { s.beforeMarker m with stream := s.stream.skip 1, last := next.pos } := by
  have hskipped : (s.stream.skip 1).rest.head? = some next := by simp [hrest]
  have hglued {v : State} (hv : v.stream.rest.head? = some next) :
      r.gluedToMarker t m.pos v = r.afterMarker t m.pos next { v with last := next.pos } := by
    unfold gluedToMarker
    rw [peek_bind, hv]
    dsimp only
    rw [hnext]
    rfl
  unfold marker State.beforeMarker
  rw [skip_bind, get_bind, if_neg (Bool.eq_false_iff.mp hword)]
  split
  · show r.gluedToMarker t m.pos ({ s with stream := s.stream.skip 1 }.pushText m.pos m.space) = _
    rw [State.pushText_stream]
    exact hglued hskipped
  · exact hglued hskipped

/-- Before an identifier that names no directive the marker writes the longest expression that stands there. -/
theorem marker_writes (ht : t.Keeps ParseM.Metered) {m : Token} {id : Ident} {ts : List Token}
    (hb : s.world.budget = none) (hrest : s.stream.rest = m :: .ident id :: ts) (hspace : id.space = [])
    (hname : r.directive? id.name = none)
    (hword : (s.markup && m.glued && s.sink.head?.any endsWithWord) = false)
    (hret : Returns (r.marker t m) s () u) :
    ∃ sels after ms v w, ts = Selector.run sels ++ after ∧
      (∀ sels', Selector.run sels' <+: ts → Selector.run sels' <+: Selector.run sels) ∧
      t.Selects sels v ms w ∧ u.sink = .write m.pos (.ident id :: ms) :: (s.beforeMarker m).sink := by
  have hglued : Token.glued (.ident id) = true := by simp [Token.glued, Token.space, hspace]
  unfold Returns at hret
  rw [marker_apply hrest hglued hword] at hret
  generalize hv : ({ s.beforeMarker m with stream := s.stream.skip 1, last := Token.pos (.ident id) } : State) = v at hret
  have hvrest : v.stream.rest = .ident id :: ts := by simp [← hv, hrest]
  have hvbudget : v.world.budget = none := by
    obtain ⟨_, _, hframe⟩ := s.pushText_frame m.pos m.space
    rw [← hv, State.beforeMarker, hframe]
    split <;> exact hb
  have hvsink : v.sink = (s.beforeMarker m).sink := by rw [← hv]
  have hafter : r.afterMarker t m.pos (.ident id) = (do emit [.write m.pos (← t.expression)]) := by
    unfold afterMarker
    simp only [hname]
  rw [hafter] at hret
  obtain ⟨ns, w, hexpr, hemit⟩ := Returns.bind hret
  obtain ⟨sels, after, hts, hlongest, hlead⟩ := Tools.expression_longest ht hvbudget hvrest
  unfold Returns at hexpr
  rw [Leads, hexpr] at hlead
  obtain ⟨-, -, v', ms, -, hselects, rfl⟩ := hlead
  have hwsink := (Tools.expression_keeps (ofSink_eq v.sink) _ _ _ rfl hexpr).1
  refine ⟨sels, after, ms, v', w, hts, hlongest, hselects, ?_⟩
  rw [hemit.modify]
  show Node.write m.pos (.ident id :: ms) :: w.sink = _
  rw [hwsink, hvsink]

end Registry

/-! ## Copies -/

namespace State

/-- Only white space before it is trimmed off a text. -/
theorem trimText_unblank (space : Text) {b : UInt8} (rest : Text) (hb : Shape.isSpace b = false) :
    ∃ before, (trimText (space ++ b :: rest)).1 = before ++ b :: rest := by
  obtain ⟨hindent, hbreak⟩ : Text.isIndent b = false ∧ Text.isLineBreak b = false := by
    simpa [Shape.isSpace] using hb
  obtain ⟨before, hbefore⟩ : ∃ before, (space ++ b :: rest).dropWhile Text.isIndent = before ++ b :: rest := by
    induction space with
    | nil => exact ⟨[], by simp [hindent]⟩
    | cons c space ih =>
      by_cases hc : Text.isIndent c = true
      · obtain ⟨before, hbefore⟩ := ih
        exact ⟨before, by simpa [hc] using hbefore⟩
      · exact ⟨c :: space, by simp [hc]⟩
  unfold trimText
  rw [hbefore]
  split
  · rename_i h
    simp at h
  · rename_i h
    cases before with
    | nil =>
      obtain ⟨rfl, -⟩ := List.cons.inj h
      cases hbreak
    | cons c before => exact ⟨before, (List.cons.inj h).2.symm⟩
  · rename_i h
    cases before with
    | nil =>
      obtain ⟨rfl, -⟩ := List.cons.inj h
      cases hbreak
    | cons c before =>
      cases before with
      | nil =>
        obtain ⟨rfl, -⟩ := List.cons.inj (List.cons.inj h).2
        cases hbreak
      | cons d before => exact ⟨before, (List.cons.inj (List.cons.inj h).2).2.symm⟩
  · exact ⟨space, rfl⟩

/-- A text of the region has these bytes in it. -/
def Holds (bytes : Text) (s : State) : Prop :=
  ∃ pos before after, Node.text pos (before ++ bytes ++ after) ∈ s.sink

theorem Holds.push {bytes : Text} {s : State} (h : s.Holds bytes) (n : Node) : (s.push n).Holds bytes := by
  obtain ⟨pos, before, after, hmem⟩ := h
  have hadded (m : Node) {trimLine : Bool} : ({ s with trimLine, sink := m :: s.sink } : State).Holds bytes :=
    ⟨pos, before, after, .tail _ hmem⟩
  cases n with
  | text p text =>
    rw [State.push, pushText_eq]
    split
    · exact ⟨pos, before, after, hmem⟩
    split
    · rename_i q own sink hsink
      rw [hsink] at hmem
      rcases List.mem_cons.mp hmem with hhead | hmem
      · -- The text that holds the bytes goes on.
        obtain ⟨-, rfl⟩ := Node.text.inj hhead
        exact ⟨_, before, after ++ (s.trimmed text).1, by rw [← List.append_assoc]; exact .head _⟩
      · exact ⟨pos, before, after, .tail _ hmem⟩
    · exact hadded _
  | _ => exact hadded _

/-- A text that is added keeps all its bytes from the first one on that is no white space. -/
theorem pushText_holds (s : State) (pos : Option Position) (space : Text) {b : UInt8} (rest : Text)
    (hb : Shape.isSpace b = false) : (s.pushText pos (space ++ b :: rest)).Holds (b :: rest) := by
  obtain ⟨before, hbefore⟩ : ∃ before, (s.trimmed (space ++ b :: rest)).1 = before ++ b :: rest := by
    unfold trimmed
    split
    · exact trimText_unblank space rest hb
    · exact ⟨space, rfl⟩
  rw [pushText_eq, hbefore]
  rw [if_neg (by simp)]
  split
  · rename_i q own sink hsink
    exact ⟨_, own ++ before, [], by rw [List.append_nil, List.append_assoc]; exact .head _⟩
  · exact ⟨pos, space, [], by simp⟩

end State

theorem ParseM.growing_holds (bytes : Text) : Growing (State.Holds bytes) where
  ofSink s u h hsink := by
    obtain ⟨pos, before, after, hmem⟩ := h
    exact ⟨pos, before, after, hsink ▸ hmem⟩
  push s n h := h.push n

/-! ## Elements -/

namespace Registry

/-- The tools of a file with the standard directives, with so many turns left. -/
def fileTools (settings : Settings) (k : Nat) (includers : List Text) (path : Text) (n : Nat) : Tools :=
  standard.tools settings (standard.embedIn settings k includers path) n

theorem fileTools_metered (settings : Settings) (k : Nat) (includers : List Text) (path : Text) (n : Nat) :
    (fileTools settings k includers path n).Keeps ParseM.Metered := by
  have hembed (file src : Text) : (standard.embedIn settings k includers path file src).Metered :=
    metered_closed.bind (parseSource_metered standard_metered settings k _ file src) fun _ => metered_closed.pure _
  exact ⟨metered_closed.loop standard_metered.keeps settings hembed n, hembed⟩

section
variable {settings : Settings} {k n : Nat} {includers : List Text} {path name : Text} {s v u : State}

theorem RawTurn.unlimited (h : standard.RawTurn (fileTools settings k includers path n) name s v)
    (hb : s.world.budget = none) : v.world.budget = none := by
  cases h with
  | marker hcheck _ _ _ hmarker =>
    have hmetered := metered_closed.marker standard_metered.keeps (fileTools_metered settings k includers path n)
    have hunlimited := hcheck.checkStop_passes.unlimited hb
    exact (hmetered _).unlimited (by exact hunlimited) hmarker
  | copy hcheck =>
    obtain ⟨_, _, hframe⟩ := State.pushText_frame _ _ _
    rw [hframe]
    exact hcheck.checkStop_passes.unlimited hb

theorem unlimited_of_turns (h : Relation.ReflTransGen (standard.RawTurn (fileTools settings k includers path n) name) s v)
    (hb : s.world.budget = none) : v.world.budget = none := by
  induction h with
  | refl => exact hb
  | tail _ hturn ih => exact hturn.unlimited ih

/-- The children of an element are what is read inside it, and the region around it stays. -/
theorem children_inside {r : Registry} {t : Tools} {nodes : List Node} {closing : Option ClosingTag}
    (hret : Returns (r.children t name) s (nodes, closing) u) :
    ∃ w, Returns (r.content t name) s.inside closing w ∧ nodes = w.sink.reverse ∧ u.sink = s.sink := by
  rw [children_eq] at hret
  obtain ⟨outer, s₁, hget, h₁⟩ := hret.bind
  obtain ⟨rfl, rfl⟩ := hget.get
  obtain ⟨_, s₂, hset, h₂⟩ := h₁.bind
  rw [hset.set] at h₂
  obtain ⟨c, w, hread, h₃⟩ := h₂.bind
  obtain ⟨inner, s₄, hget, h₄⟩ := h₃.bind
  obtain ⟨rfl, rfl⟩ := hget.get
  obtain ⟨_, s₅, hset, h₅⟩ := h₄.bind
  obtain ⟨heq, rfl⟩ := h₅.pure
  obtain ⟨rfl, rfl⟩ := Prod.mk.inj heq
  exact ⟨_, hread, rfl, by rw [hset.set]⟩

/-- The group at the next token is copied, and stays in the text of the region. -/
theorem group_held {f : Frame} {cs ts : List Token} {c : Option ClosingTag} {i : Nat}
    (hrest : v.stream.rest = .group f cs :: ts) (hdelim : f.delim ≠ .none) (hb : v.world.budget = none)
    (hread : Returns (standard.rawTextWithin (fileTools settings k includers path n) name i) v c u) :
    u.Holds (Token.source (.group f cs)) := by
  obtain ⟨b, rest, hsource, hspace⟩ :
      ∃ b rest, Token.source (.group f cs) = b :: rest ∧ Shape.isSpace b = false := by
    rw [Token.source]
    cases hd : f.delim with
    | none => exact (hdelim hd).elim
    | parenthesis | brace | bracket => exact ⟨_, _, rfl, by decide⟩
  obtain ⟨s₁, hcheck, -⟩ := checkStop_passes hb
  obtain ⟨j, -, hmore⟩ := RawTurn.rest_read (.copy hcheck hrest rfl rfl) hread
  refine Finishes.grows (growing_holds _) (.rawText hmore) ?_
  rw [Token.sourceWithSpace, Token.sourceWithSpace, List.append_nil, hsource]
  exact State.pushText_holds _ _ _ _ hspace

/-- Raw text: wherever its turns lead. At a marker that is directly followed by the name of no directive, and that
does not stand in a word, the value of the longest expression is written. At a group the source of the group is
written, with the markers in it. -/
theorem children_rawText {nodes : List Node} {closing : Option ClosingTag} (hraw : standard.isRawText name = true)
    (hb : s.world.budget = none)
    (hret : Returns (standard.children (fileTools settings k includers path n) name) s (nodes, closing) u)
    (hreach : Relation.ReflTransGen (standard.RawTurn (fileTools settings k includers path n) name) s.inside v) :
    (∀ m id ts, v.stream.rest = m :: .ident id :: ts → m.isPunct '@' = true → id.space = [] →
      standard.directive? id.name = none → (v.markup && m.glued && v.sink.head?.any endsWithWord) = false →
      ∃ sels after ms, ts = Selector.run sels ++ after ∧
        (∀ sels', Selector.run sels' <+: ts → Selector.run sels' <+: Selector.run sels) ∧
        (∃ v₁ v₂, (fileTools settings k includers path n).Selects sels v₁ ms v₂) ∧
        .write m.pos (.ident id :: ms) ∈ nodes) ∧
    ∀ f cs ts, v.stream.rest = .group f cs :: ts → f.delim ≠ .none →
      ∃ pos before after, .text pos (before ++ Token.source (.group f cs) ++ after) ∈ nodes := by
  obtain ⟨w, hread, rfl, -⟩ := children_inside hret
  rw [content, if_pos hraw] at hread
  obtain ⟨i, hmore⟩ := rest_read_of_turns hreach hread
  constructor
  · intro m id ts hrest hm hspace hname hword
    have hbudget := unlimited_of_turns hreach hb
    cases i with
    | zero => exact hmore.throw.elim
    | succ i =>
      obtain ⟨s₁, hcheck, -⟩ := checkStop_passes hbudget
      have hglued : Token.glued (.ident id) = true := by simp [Token.glued, Token.space, hspace]
      unfold Returns at hmore
      rw [rawTextWithin_marker hcheck hrest hm hglued] at hmore
      obtain ⟨_, w', hmarker, hmore⟩ := Returns.bind hmore
      obtain ⟨v', hv', hvrest, hvword, hvbudget⟩ : ∃ v' : State, v' = { s₁ with last := m.pos } ∧
          v'.stream.rest = m :: .ident id :: ts ∧
          (v'.markup && m.glued && v'.sink.head?.any endsWithWord) = false ∧ v'.world.budget = none := by
        have hunlimited := hcheck.checkStop_passes.unlimited hbudget
        obtain ⟨budget, rfl⟩ := hcheck.checkStop
        exact ⟨_, rfl, hrest, hword, hunlimited⟩
      rw [← hv'] at hmarker
      obtain ⟨sels, after, ms, v₁, v₂, hts, hlongest, hselects, hsink⟩ :=
        marker_writes (fileTools_metered settings k includers path n) hvbudget hvrest hspace hname hvword hmarker
      have habove : w.Above (.write m.pos (.ident id :: ms) :: _) :=
        Finishes.grows (growing_above fun n hn => by cases hn; rfl) (.rawText hmore) ⟨[], hsink⟩
      obtain ⟨more, hmore⟩ := habove
      exact ⟨sels, after, ms, hts, hlongest, ⟨v₁, v₂, hselects⟩, by simp [hmore]⟩
  · intro f cs ts hrest hdelim
    obtain ⟨pos, before, after, hmem⟩ := group_held hrest hdelim (unlimited_of_turns hreach hb) hmore
    exact ⟨pos, before, after, List.mem_reverse.mpr hmem⟩

end

/-- In a script, before `(@y)@x</script>`. -/
def scriptState : State :=
  { world := {}, path := [], includers := [],
    stream := .ofTokens [.enclose none .parenthesis [.mark none '@', .word none (utf8 "y")], .mark none '@',
      .word none (utf8 "x"), .mark none '<', .mark none '/', .word none (utf8 "script"), .mark none '>'] }

def scriptTools : Tools := fileTools { markdown := .ok } 0 [] [] 9

/-- The marker between the parentheses is copied, the one behind them writes `x`. -/
theorem children_rawText_script : ∃ nodes closing u v, standard.isRawText (utf8 "script") = true ∧
    scriptState.world.budget = none ∧
    Returns (standard.children scriptTools (utf8 "script")) scriptState (nodes, closing) u ∧
    Relation.ReflTransGen (standard.RawTurn scriptTools (utf8 "script")) scriptState.inside v ∧
    v.stream.rest.head? = some (.mark none '@') ∧
    (∃ pos before after, .text pos (before ++ utf8 "(@y)" ++ after) ∈ nodes) ∧
    ∃ ms, .write none (.ident ⟨none, [], utf8 "x"⟩ :: ms) ∈ nodes := by
  have hpasses : passes (fun _ _ => true) (standard.children scriptTools (utf8 "script") scriptState) = true := by
    unfold scriptTools fileTools
    rw [standard_eq]
    decide +kernel
  obtain ⟨⟨nodes, closing⟩, u, hret, -⟩ := exists_of_passes _ _ hpasses
  have hraw : standard.isRawText (utf8 "script") = true := by
    rw [standard_eq]
    decide +kernel
  have hcheck : Returns checkStop scriptState.inside () scriptState.inside := rfl
  have hfirst : standard.RawTurn scriptTools (utf8 "script") scriptState.inside _ := .copy hcheck rfl rfl rfl
  obtain ⟨-, hgroup⟩ := children_rawText hraw rfl hret .refl
  obtain ⟨hmarker, -⟩ := children_rawText hraw rfl hret (.single hfirst)
  obtain ⟨_, _, ms, -, -, -, hwrite⟩ := hmarker _ ⟨none, [], utf8 "x"⟩ _ rfl rfl rfl (by decide +kernel)
    (by decide +kernel)
  exact ⟨nodes, closing, u, _, hraw, rfl, hret, .single hfirst, rfl, hgroup _ _ _ rfl (by decide), ms, hwrite⟩

end Registry
end Atmark
