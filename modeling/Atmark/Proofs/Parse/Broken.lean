import Atmark.Proofs.Parse.RawText

/-! Directives that end what they stand in. The loop that runs such a directive stops where the directive has left
off, and clears the flag that told it to, so the reading of a group, of the children of an element and of a file ends
there, and the loop around a group goes on after it (`Registry.breaksOff`). Only the reading of raw text does not look
at the flag. -/
namespace Atmark
open Node ParseM

namespace State
variable (s v : State)

/-- The state in which the directive after the marker `m` is run. -/
def running (m : Token) (id : Ident) : State :=
  { s.beforeMarker m with stream := s.stream.skip 2, last := id.pos }.directed id

/-- The state after what a directive has ended. -/
def ended : State := { s with broken := false }

/-- The state in which the tokens of a group are read into nodes of their own. -/
def regionOf (f : Frame) (cs : List Token) (markup : Bool) : State :=
  { s with stream := .ofGroup f cs, sink := [], markup, atStart := f.delim.holdsStatements }

/-- The state after a group that was read into nodes of its own, up to the state `v`. -/
def afterRegion : State := { v with stream := s.stream, sink := s.sink, markup := s.markup, atStart := s.atStart }

/-- The state in which the tokens of the next group are read, where it is part of the region. -/
def intoGroup (f : Frame) (cs : List Token) : State :=
  if s.markup then { s.pushText f.pos (f.space ++ f.delim.opening) with stream := .ofGroup f cs }
  else s.regionOf f cs false

/-- The state after a group that was read up to the state `v`. -/
def afterGroup (f : Frame) : State :=
  if s.markup then
    { v with stream := s.stream, markup := true }.pushText f.pos (f.closeSpace ++ f.delim.closing)
  else (s.afterRegion v).push (.group f v.sink.reverse)

end State

namespace Registry
variable {r : Registry} {t : Tools} {settings : Settings} {embed : Text → Text → ParseM Fragment}
  {n : Nat} {s s₁ u v : State} {m tok : Token} {ts : List Token}

/-! ## The directive -/

/-- Before the name of a directive a marker runs the directive. -/
theorem marker_directive {id : Ident} {d : Directive} (hrest : s.stream.rest = m :: .ident id :: ts)
    (hspace : id.space = []) (hword : (s.markup && m.glued && s.sink.head?.any endsWithWord) = false)
    (hname : r.directive? id.name = some d) : r.marker t m s = (do
      match ← d.run t id with
      | .next => pure ()
      | .leave => modify fun s : State => { s with broken := true }
      | .expression => emit [.write m.pos (← t.expressionFrom id)]) (s.running m id) := by
  have hglued : (Token.ident id).glued = true := by simp [Token.glued, Token.space, hspace]
  have hskipped : ({ s.beforeMarker m with stream := s.stream.skip 1, last := id.pos } : State).stream.skip 1 =
      s.stream.skip 2 := Stream.skip_skip s.stream 1 1
  rw [marker_apply hrest hglued hword]
  dsimp only [afterMarker]
  rw [hname]
  dsimp only [runDirective]
  rw [skip_bind]
  dsimp only
  rw [hskipped]
  rfl

/-- What follows the marker `m` is a directive that ends what it stands in, and that leaves the state `v`. -/
inductive Leaves (r : Registry) (t : Tools) (m : Token) : State → State → Prop
  | intro {s v : State} {id : Ident} {ts : List Token} {d : Directive} : s.stream.rest = m :: .ident id :: ts →
      id.space = [] → (s.markup && m.glued && s.sink.head?.any endsWithWord) = false →
      r.directive? id.name = some d → Returns (d.run t id) (s.running m id) .leave v → Leaves r t m s v

theorem Leaves.marker (h : r.Leaves t m s v) : Returns (r.marker t m) s () { v with broken := true } := by
  cases h with
  | intro hrest hspace hword hname hrun =>
    rw [Returns, marker_directive hrest hspace hword hname]
    exact hrun.andThen rfl

/-! ## Turns -/

/-- What a turn does with the next token, and what it comes to if it does not go on. -/
def step (r : Registry) (t : Tools) (tok : Token) (ts : List Token) : Action → ParseM (Option (Option ClosingTag))
  | .text => do
    skip 1
    emitText (tok.space ++ tok.brief) tok.pos
    return none
  | .group f cs => do
    skip 1
    t.group f cs
    return none
  | .marker => do
    r.marker t tok
    return none
  | .tag lt => do return (← r.tagEntry t lt ts).map some
  | .identifier => do
    emit (← t.expression)
    return none
  | .literal l => do
    skip 1
    emit [.literal l]
    return none
  | .code p => do
    t.code p
    return none
  | .stop => return some none

theorem act_eq (r : Registry) (t : Tools) (tok : Token) (ts : List Token) (a : Action) :
    r.act t tok ts a = (do
      match ← r.step t tok ts a with
      | some closing => return closing
      | none => goOn t) := by
  cases a with
  | tag lt =>
    simp only [act, step, bind_assoc, pure_bind]
    refine congrArg (r.tagEntry t lt ts >>= ·) (funext fun closing => ?_)
    cases closing <;> rfl
  | _ => simp only [act, step, bind_assoc, pure_bind]

/-- A turn does not go on at a closing tag and at a token that ends the stream. -/
theorem step_some {a : Action} {closing : Option ClosingTag} (h : Returns (r.step t tok ts a) s (some closing) u) :
    (∃ lt c, a = .tag lt ∧ closing = some c ∧ Returns (r.tagEntry t lt ts) s (some c) u) ∨
      a = .stop ∧ closing = none ∧ u = s := by
  have hnone {m : ParseM Unit} (h : Returns (do m; return none) s (some closing) u) : False := by
    obtain ⟨_, _, -, hret⟩ := h.bind
    cases hret.pure.1
  cases a with
  | text => exact (hnone (m := do skip 1; emitText (tok.space ++ tok.brief) tok.pos) (by simpa [step] using h)).elim
  | group f cs => exact (hnone (m := do skip 1; t.group f cs) (by simpa [step] using h)).elim
  | marker => exact (hnone h).elim
  | tag lt =>
    obtain ⟨found, s₁, hentry, hret⟩ := h.bind
    obtain ⟨hfound, rfl⟩ := hret.pure
    cases found with
    | none => cases hfound
    | some c => exact .inl ⟨lt, c, rfl, Option.some.inj hfound, hentry⟩
  | identifier => exact (hnone (m := do emit (← t.expression)) (by simpa [step] using h)).elim
  | literal l => exact (hnone (m := do skip 1; emit [.literal l]) (by simpa [step] using h)).elim
  | code p => exact (hnone h).elim
  | stop => exact .inr ⟨rfl, Option.some.inj h.pure.1, h.pure.2⟩

theorem turn_at (hcheck : Returns checkStop s () s₁) (hrest : s.stream.rest = tok :: ts) :
    r.turn t s = r.act t tok ts (tok.action s.markup s.atStatementStart) { s₁ with last := tok.pos } := by
  obtain ⟨budget, rfl⟩ := hcheck.checkStop
  unfold turn
  rw [hcheck.bind_eq, rest_bind]
  dsimp only
  rw [hrest]
  rfl

/-- A turn after which the loop goes on from the state `u`. -/
inductive GoesOn (r : Registry) (t : Tools) : State → State → Prop
  | intro {s s₁ u : State} {tok : Token} {ts : List Token} : Returns checkStop s () s₁ → s.stream.rest = tok :: ts →
      Returns (r.step t tok ts (tok.action s.markup s.atStatementStart)) { s₁ with last := tok.pos } none u →
      u.broken = false → GoesOn r t s u

theorem GoesOn.turn_eq (h : r.GoesOn t s u) : r.turn t s = t.resume u := by
  cases h with
  | intro hcheck hrest hstep hbroken => rw [turn_at hcheck hrest, act_eq, hstep.bind_eq, ← goOn_unbroken hbroken]

/-- The loop comes, over turns after which it goes on, to a directive that ends it and that leaves the state `v`. -/
inductive LeavesFrom (r : Registry) (settings : Settings) (embed : Text → Text → ParseM Fragment) :
    Nat → State → State → Prop
  | now {n : Nat} {s s₁ v : State} {m : Token} {ts : List Token} : Returns checkStop s () s₁ →
      s.stream.rest = m :: ts → m.isPunct '@' = true →
      r.Leaves (r.tools settings embed n) m { s₁ with last := m.pos } v → LeavesFrom r settings embed (n + 1) s v
  | later {n : Nat} {s u v : State} : r.GoesOn (r.tools settings embed n) s u → LeavesFrom r settings embed n u v →
      LeavesFrom r settings embed (n + 1) s v

/-- The loop stops where the directive has left off. -/
theorem LeavesFrom.loop (h : r.LeavesFrom settings embed n s v) : Returns (r.loop settings embed n) s none v.ended := by
  induction h with
  | @now n s s₁ v m ts hcheck hrest hm hleaves =>
    have haction : m.action s.markup s.atStatementStart = .marker := by
      rw [Token.eq_punct hm]
      rfl
    show r.turn (r.tools settings embed n) s = _
    rw [turn_at hcheck hrest, haction]
    exact hleaves.marker.andThen rfl
  | @later n s u v hgoes _ ih =>
    show r.turn (r.tools settings embed n) s = _
    rw [hgoes.turn_eq]
    exact ih

/-- A turn that starts without the flag ends without it if the turns after it do. -/
theorem turn_unbroken {c : Option ClosingTag}
    (ht : ∀ {s u : State} {c : Option ClosingTag}, s.broken = false → Returns t.resume s c u → u.broken = false)
    (hs : s.broken = false) (h : Returns (r.turn t) s c u) : u.broken = false := by
  obtain ⟨_, s₁, hcheck, h₁⟩ := Returns.bind (m := checkStop) h
  obtain ⟨budget, hs₁⟩ := hcheck.checkStop
  have hbroken₁ : s₁.broken = false := by
    rw [hs₁]
    exact hs
  cases hrest : s.stream.rest with
  | nil =>
    obtain ⟨us, s₂, hus, h₂⟩ := h₁.bind
    obtain ⟨rfl, rfl⟩ := hus.rest
    have hnil : s₂.stream.rest = [] := by rw [stream_of_checkStop hcheck, hrest]
    rw [hnil] at h₂
    rw [h₂.pure.2]
    exact hbroken₁
  | cons tok ts =>
    have hact : Returns (r.act t tok ts (tok.action s.markup s.atStatementStart)) { s₁ with last := tok.pos } c u := by
      unfold Returns
      rw [← turn_at hcheck hrest]
      exact h
    rw [act_eq] at hact
    obtain ⟨next, s₂, hstep, h₂⟩ := hact.bind
    cases next with
    | none =>
      obtain ⟨x, s₃, hget, h₃⟩ := Returns.bind (m := get) h₂
      obtain ⟨rfl, rfl⟩ := hget.get
      split at h₃
      · obtain ⟨_, s₄, hset, h₄⟩ := h₃.bind
        rw [h₄.pure.2, hset.set]
      · rename_i hbroken
        exact ht (by simpa using hbroken) h₃
    | some closing =>
      rw [h₂.pure.2]
      rcases step_some hstep with ⟨lt, c', haction, -, hentry⟩ | ⟨-, -, rfl⟩
      · obtain rfl := Token.eq_of_action_tag haction
        have hrest₁ : s₁.stream.rest = .punct lt :: ts := by rw [stream_of_checkStop hcheck, hrest]
        obtain ⟨hkept, -⟩ := written_of_tagEntry (s := { s₁ with last := (Token.punct lt).pos })
          (Token.char_of_action_tag haction) hrest₁ hentry
        exact hkept.trans hbroken₁
      · exact hbroken₁

/-- Every loop ends without the flag. -/
theorem loop_unbroken {c : Option ClosingTag} (hs : s.broken = false) (h : Returns (r.loop settings embed n) s c u) :
    u.broken = false := by
  induction n generalizing s u c with
  | zero => exact h.throw.elim
  | succ n ih => exact turn_unbroken (t := r.tools settings embed n) ih hs h

/-! ## What the loop reads for -/

/-- The tokens of a stream are read up to a directive that ends it and that leaves the state `v`. -/
def EndsAt (r : Registry) (settings : Settings) (embed : Text → Text → ParseM Fragment) (n : Nat) (s v : State) :
    Prop :=
  ∃ s₁, Returns checkStop s () s₁ ∧ r.LeavesFrom settings embed n s₁ v

theorem EndsAt.parse (h : r.EndsAt settings embed n s v) :
    Returns (r.tools settings embed n).parse s none v.ended := by
  obtain ⟨s₁, hcheck, hleaves⟩ := h
  exact hcheck.andThen hleaves.loop

theorem EndsAt.region {f : Frame} {cs : List Token} {markup : Bool}
    (h : r.EndsAt settings embed n (s.regionOf f cs markup) v) :
    Returns ((r.tools settings embed n).region f cs markup) s v.sink.reverse (s.afterRegion v.ended) := by
  have hset : Returns (set (s.regionOf f cs markup)) s ⟨⟩ (s.regionOf f cs markup) := rfl
  refine Returns.andThen (a := s) (t := s) rfl ?_
  refine hset.andThen ?_
  refine h.parse.andThen ?_
  exact Returns.andThen (a := v.ended) (t := v.ended) rfl rfl

theorem EndsAt.group {f : Frame} {cs : List Token} (h : r.EndsAt settings embed n (s.intoGroup f cs) v) :
    Returns ((r.tools settings embed n).group f cs) s () (s.afterGroup v.ended f) := by
  unfold State.intoGroup at h
  unfold State.afterGroup
  unfold Tools.group
  refine Returns.andThen (a := s) (t := s) rfl ?_
  cases hmarkup : s.markup with
  | true =>
    simp only [hmarkup, if_true] at h ⊢
    generalize hopened : s.pushText f.pos (f.space ++ f.delim.opening) = opened at h
    obtain ⟨sink, trimLine, hframe⟩ := s.pushText_frame f.pos (f.space ++ f.delim.opening)
    have hstream : opened.stream = s.stream := by rw [← hopened, hframe]
    have hopen : opened.markup = true := by rw [← hopened, hframe, ← hmarkup]
    have hset : Returns (set { opened with stream := .ofGroup f cs }) opened ⟨⟩
        { opened with stream := .ofGroup f cs } := rfl
    refine Returns.andThen (a := ()) (t := opened) (congrArg (EStateM.Result.ok ()) hopened) ?_
    refine Returns.andThen (a := opened) (t := opened) rfl ?_
    refine hset.andThen ?_
    refine h.parse.andThen ?_
    rw [hstream, hopen]
    rfl
  | false =>
    simp only [hmarkup, Bool.false_eq_true, if_false] at h ⊢
    exact h.region.andThen rfl

theorem EndsAt.children {name : Text} (hraw : r.isRawText name = false) (h : r.EndsAt settings embed n s.inside v) :
    Returns (r.children (r.tools settings embed n) name) s (v.sink.reverse, none) (s.backIn v.ended) := by
  have hcontent : r.content (r.tools settings embed n) name = (r.tools settings embed n).parse := by
    simp [content, hraw]
  rw [children_eq, hcontent]
  have hset : Returns (set s.inside) s ⟨⟩ s.inside := rfl
  refine Returns.andThen (a := s) (t := s) rfl ?_
  refine hset.andThen ?_
  refine h.parse.andThen ?_
  exact Returns.andThen (a := v.ended) (t := v.ended) rfl rfl

/-- After a group that was ended the loop goes on with the next token. -/
theorem EndsAt.goesOn {f : Frame} {cs : List Token} (hcheck : Returns checkStop s () s₁)
    (hrest : s.stream.rest = .group f cs :: ts)
    (h : r.EndsAt settings embed n (({ s₁ with last := f.pos, stream := s.stream.skip 1 } : State).intoGroup f cs) v) :
    r.GoesOn (r.tools settings embed n) s
      (({ s₁ with last := f.pos, stream := s.stream.skip 1 } : State).afterGroup v.ended f) := by
  have hstream := stream_of_checkStop hcheck
  have hskip : Returns (skip 1) { s₁ with last := f.pos } () { s₁ with last := f.pos, stream := s.stream.skip 1 } := by
    rw [← hstream]
    rfl
  refine .intro hcheck hrest (hskip.andThen (h.group.andThen rfl)) ?_
  unfold State.afterGroup
  split
  · obtain ⟨sink, trimLine, hframe⟩ := State.pushText_frame
      { v.ended with stream := s.stream.skip 1, markup := true } f.pos (f.closeSpace ++ f.delim.closing)
    rw [hframe]
    rfl
  · rfl

/-- The nodes of a file are those before the directive that ends it, and the white space after its last token. -/
theorem EndsAt.parseSource {k : Nat} {includers : List Text} {path src trailing : Text} {tokens : List Token}
    {w : World} (hlex : Token.lex src = .ok (tokens, trailing))
    (h : r.EndsAt settings (r.embedIn settings k includers path) (r.turns w tokens)
      { world := w, path, includers, stream := .ofTokens tokens } v) :
    r.parseSource settings (k + 1) includers path src w =
      .ok ((v.ended.pushText (Stream.ofTokens tokens).stop trailing).sink.reverse, v.declared) v.world := by
  obtain ⟨s₁, hcheck, hleaves⟩ := h
  have hread : Returns (r.readTokens settings (r.embedIn settings k includers path) (r.turns w tokens) tokens trailing)
      { world := w, path, includers, stream := .ofTokens tokens } ()
      (v.ended.pushText (Stream.ofTokens tokens).stop trailing) := hcheck.andThen (hleaves.loop.andThen rfl)
  obtain ⟨sink, trimLine, hframe⟩ := v.ended.pushText_frame (Stream.ofTokens tokens).stop trailing
  unfold Returns at hread
  rw [parseSource_lexed r settings k includers path src w hlex, WorldM.ofParse, hread]
  dsimp only
  rw [hframe]
  rfl

/-- The reading of raw text goes on after the directive. -/
theorem Leaves.rawText {name : Text} {k : Nat} (hcheck : Returns checkStop s () s₁) (hm : m.isPunct '@' = true)
    (h : r.Leaves t m { s₁ with last := m.pos } v) :
    r.rawTextWithin t name (k + 1) s = r.rawTextWithin t name k { v with broken := true } := by
  have hmarker := h.marker
  cases h with
  | @intro id ts d hrest hspace hword hname hrun =>
    have hglued : (Token.ident id).glued = true := by simp [Token.glued, Token.space, hspace]
    have hrest' : s.stream.rest = m :: .ident id :: ts := by
      rw [← stream_of_checkStop hcheck]
      exact hrest
    rw [rawTextWithin_marker hcheck hrest' hm hglued, hmarker.bind_eq]

/-- How a directive that ends what it stands in ends it, wherever the loop reads on. -/
structure BreaksOff (r : Registry) (settings : Settings) : Prop where
  /-- The loop stops in the state that the directive leaves, and no token after it is read. -/
  loop {embed : Text → Text → ParseM Fragment} {n : Nat} {s v : State} : r.LeavesFrom settings embed n s v →
    Returns (r.loop settings embed n) s none v.ended
  /-- No loop hands the flag on to what is around it. -/
  unbroken {embed : Text → Text → ParseM Fragment} {n : Nat} {s u : State} {c : Option ClosingTag} :
    s.broken = false → Returns (r.loop settings embed n) s c u → u.broken = false
  /-- A group that is read into nodes of its own has those before the end, and the reading around it goes on after
  the group. -/
  region {embed : Text → Text → ParseM Fragment} {n : Nat} {s v : State} {f : Frame} {cs : List Token}
    {markup : Bool} : r.EndsAt settings embed n (s.regionOf f cs markup) v →
    Returns ((r.tools settings embed n).region f cs markup) s v.sink.reverse (s.afterRegion v.ended)
  /-- The loop goes on after a group, which has the nodes before the end. -/
  group {embed : Text → Text → ParseM Fragment} {n : Nat} {s s₁ v : State} {f : Frame} {cs ts : List Token} :
    Returns checkStop s () s₁ → s.stream.rest = .group f cs :: ts →
    r.EndsAt settings embed n (({ s₁ with last := f.pos, stream := s.stream.skip 1 } : State).intoGroup f cs) v →
    r.GoesOn (r.tools settings embed n) s
      (({ s₁ with last := f.pos, stream := s.stream.skip 1 } : State).afterGroup v.ended f)
  /-- Where the loop goes on, the rest is read. -/
  goesOn {embed : Text → Text → ParseM Fragment} {n : Nat} {s u : State} :
    r.GoesOn (r.tools settings embed n) s u → r.loop settings embed (n + 1) s = r.loop settings embed n u
  /-- The children of an element end without a closing tag, unless they are raw text. -/
  children {embed : Text → Text → ParseM Fragment} {n : Nat} {s v : State} {name : Text} :
    r.isRawText name = false → r.EndsAt settings embed n s.inside v →
    Returns (r.children (r.tools settings embed n) name) s (v.sink.reverse, none) (s.backIn v.ended)
  /-- A file consists of the nodes before the end and the white space after its last token. -/
  file {k : Nat} {includers : List Text} {path src trailing : Text} {tokens : List Token} {w : World} {v : State} :
    Token.lex src = .ok (tokens, trailing) →
    r.EndsAt settings (r.embedIn settings k includers path) (r.turns w tokens)
      { world := w, path, includers, stream := .ofTokens tokens } v →
    r.parseSource settings (k + 1) includers path src w =
      .ok ((v.ended.pushText (Stream.ofTokens tokens).stop trailing).sink.reverse, v.declared) v.world

/-- A directive that ends what it stands in ends the group or the file there: nothing after it is read, and what is
around the group goes on. -/
theorem breaksOff (r : Registry) (settings : Settings) : r.BreaksOff settings where
  loop h := h.loop
  unbroken hs h := loop_unbroken hs h
  region h := h.region
  group hcheck hrest h := h.goesOn hcheck hrest
  goesOn h := h.turn_eq
  children hraw h := h.children hraw
  file hlex h := h.parseSource hlex

/-- The standard directives, and one that ends what it stands in. -/
def stopping : Registry :=
  { standard with directives := standard.directives ++ [{ name := utf8 "stop", run := fun _ _ => pure .leave }] }

/-- The frame of a group in parentheses. -/
def stopFrame : Frame := ⟨none, [], .parenthesis, []⟩

/-- A word after the directive. -/
def stopTokens : List Token := [.mark none '@', .word none (utf8 "stop"), .ident ⟨none, utf8 " ", utf8 "b"⟩]

/-- Before a group in which a word stands after the directive. -/
def stopSample : State where
  world := {}
  path := []
  includers := []
  stream := ⟨[], [.group stopFrame stopTokens, .word none (utf8 "c")], none⟩

/-- In the group. -/
def stopInside : State :=
  ({ stopSample with last := none, stream := stopSample.stream.skip 1 } : State).intoGroup stopFrame stopTokens

/-- The word in the group is not read, and the word after the group is. -/
theorem breaksOff_group : ∃ v u : State, Returns checkStop stopSample () stopSample ∧
    stopping.EndsAt { markdown := .ok } (fun _ _ => throw .exhausted) 1 stopInside v ∧
    stopping.loop { markdown := .ok } (fun _ _ => throw .exhausted) 2 stopSample =
      stopping.loop { markdown := .ok } (fun _ _ => throw .exhausted) 1 u ∧
    u.sink = [.text none (utf8 "()")] ∧ u.stream.rest = [.word none (utf8 "c")] := by
  have hcheck : Returns checkStop stopSample () stopSample := checkStop_unlimited rfl
  have hinside : Returns checkStop stopInside () stopInside := checkStop_unlimited rfl
  have hends : stopping.EndsAt { markdown := .ok } (fun _ _ => throw .exhausted) 1 stopInside
      (({ stopInside with last := none } : State).running (.mark none '@') ⟨none, [], utf8 "stop"⟩) :=
    ⟨_, hinside, .now hinside rfl rfl (.intro rfl rfl rfl rfl rfl)⟩
  have hgroup := (breaksOff stopping { markdown := .ok }).group hcheck rfl hends
  exact ⟨_, _, hcheck, hends, (breaksOff stopping { markdown := .ok }).goesOn hgroup, rfl, rfl⟩

end Registry
end Atmark
