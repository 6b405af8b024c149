import Atmark.Parse.Engine

/-! What a parsing step returns, and what it keeps. `Returns` opens a step from its end: a sequence
that returned has returned from each of its parts. `Keeps` goes the other way: an invariant that every
part keeps is kept by the whole, together with what is known of the results in between. -/
namespace Atmark

/-! ## Adding nodes -/

namespace State

theorem pushText_frame (s : State) (pos : Option Position) (t : Text) :
    ∃ sink trimLine, s.pushText pos t = { s with sink, trimLine } := by
  unfold pushText
  split
  split
  · exact ⟨s.sink, _, rfl⟩
  · split <;> exact ⟨_, _, rfl⟩

@[simp] theorem stream_pushText (s : State) (pos : Option Position) (t : Text) :
    (s.pushText pos t).stream = s.stream := by
  obtain ⟨_, _, h⟩ := s.pushText_frame pos t
  rw [h]

theorem pushText_stream (s : State) (stream : Stream) (pos : Option Position) (t : Text) :
    { s with stream }.pushText pos t = { s.pushText pos t with stream } := by
  unfold pushText
  generalize (if s.trimLine then trimText t else (t, false)) = p
  obtain ⟨trimmed, trimLine⟩ := p
  dsimp only
  split
  · rfl
  · cases s.sink with
    | nil => rfl
    | cons n ns => cases n <;> rfl

/-- Nothing comes of an empty text. -/
theorem pushText_nil (s : State) (pos : Option Position) : s.pushText pos [] = s := by
  cases s with
  | mk _ _ _ _ _ _ _ _ _ _ trimLine => cases trimLine <;> rfl

/-- Adding nodes changes the nodes of the region and what is left out of the line. -/
theorem foldl_push_frame (ns : List Node) (s : State) :
    ∃ sink trimLine, ns.foldl push s = { s with sink, trimLine } := by
  induction ns generalizing s with
  | nil => exact ⟨s.sink, s.trimLine, rfl⟩
  | cons n ns ih =>
    have h : ∃ sink trimLine, s.push n = { s with sink, trimLine } := by
      cases n with
      | text pos t => exact s.pushText_frame pos t
      | _ => exact ⟨_, _, rfl⟩
    obtain ⟨sink, trimLine, h⟩ := h
    obtain ⟨sink', trimLine', h'⟩ := ih (s.push n)
    refine ⟨sink', trimLine', ?_⟩
    rw [List.foldl_cons, h', h]

end State

namespace ParseM

variable {α β : Type}

/-- The step returns `a` from the state `s` and leaves the state `s'`. -/
def Returns (m : ParseM α) (s : State) (a : α) (s' : State) : Prop := m s = .ok a s'

namespace Returns

variable {s s' : State} {a b : α}

theorem bind {m : ParseM α} {f : α → ParseM β} {b : β} (h : Returns (m >>= f) s b s') :
    ∃ a t, Returns m s a t ∧ Returns (f a) t b s' := by
  simp only [Returns, Bind.bind, EStateM.bind] at h
  cases hm : m s with
  | ok a t => rw [hm] at h; exact ⟨a, t, hm, h⟩
  | error e t => rw [hm] at h; cases h

theorem andThen {m : ParseM α} {f : α → ParseM β} {t : State} {b : β} (h : Returns m s a t)
    (h' : Returns (f a) t b s') : Returns (m >>= f) s b s' := by
  unfold Returns at h
  simp only [Returns, Bind.bind, EStateM.bind, h]
  exact h'

/-- After a step that returns comes what follows it. -/
theorem bind_eq {m : ParseM α} (h : Returns m s a s') (f : α → ParseM β) : (m >>= f) s = f a s' := by
  unfold Returns at h
  simp only [Bind.bind, EStateM.bind, h]

/-- A step returns in one way. -/
theorem det {m : ParseM α} {t t' : State} (h : Returns m s a t) (h' : Returns m s b t') : b = a ∧ t' = t := by
  unfold Returns at h h'
  rw [h] at h'
  cases h'
  exact ⟨rfl, rfl⟩

theorem pure (h : Returns (Pure.pure a : ParseM α) s b s') : b = a ∧ s' = s := by
  cases h; exact ⟨rfl, rfl⟩

theorem throw {e : Error} (h : Returns (MonadExcept.throw e : ParseM α) s a s') : False := by
  cases h

theorem fail {pos : Option Position} {cause : Fault}
    (h : Returns (ParseM.fail pos cause : ParseM α) s a s') : False := by
  cases h

theorem unexpected {t : Token} {c : Context}
    (h : Returns (ParseM.unexpected t c : ParseM α) s a s') : False := by
  cases h

theorem get {x : State} (h : Returns (MonadState.get : ParseM State) s x s') :
    x = s ∧ s' = s := by
  cases h; exact ⟨rfl, rfl⟩

theorem set {x : State} {u : PUnit} (h : Returns (MonadStateOf.set x : ParseM PUnit) s u s') :
    s' = x := by
  cases h; rfl

theorem modify {f : State → State} {u : PUnit} (h : Returns (modify f : ParseM PUnit) s u s') :
    s' = f s := by
  cases h; rfl

theorem rest {ts : List Token} (h : Returns ParseM.rest s ts s') :
    ts = s.stream.rest ∧ s' = s := by
  cases h; exact ⟨rfl, rfl⟩

theorem peek {t : Option Token} (h : Returns ParseM.peek s t s') :
    t = s.stream.rest.head? ∧ s' = s := by
  cases h; exact ⟨rfl, rfl⟩

theorem ofWorld {m : WorldM α} (h : Returns (ParseM.ofWorld m) s a s') :
    ∃ w, m s.world = .ok a w ∧ s' = { s with world := w } := by
  simp only [Returns, ParseM.ofWorld] at h
  split at h
  · rename_i w hm
    cases h
    exact ⟨w, hm, rfl⟩
  · cases h

/-- A check of the right to go on changes nothing but that right. -/
theorem checkStop {u : Unit} (h : Returns ParseM.checkStop s u s') :
    ∃ budget, s' = { s with world := { s.world with budget } } := by
  unfold ParseM.checkStop at h
  obtain ⟨x, t, hg, hx⟩ := bind h
  obtain ⟨rfl, rfl⟩ := get hg
  split at hx
  · obtain ⟨-, rfl⟩ := pure hx; exact ⟨_, rfl⟩
  · exact (throw hx).elim
  · exact ⟨_, set hx⟩

end Returns

/-- The step returned a result and a state that pass a test. -/
def passes (p : α → State → Bool) : EStateM.Result Error State α → Bool
  | .ok a u => p a u
  | .error .. => false

theorem exists_of_passes {p : α → State → Bool} (m : ParseM α) (s : State)
    (h : passes p (m s) = true) : ∃ a u, Returns m s a u ∧ p a u = true := by
  cases hms : m s with
  | ok a u =>
    rw [hms] at h
    exact ⟨a, u, hms, h⟩
  | error e u =>
    rw [hms] at h
    cases h

/-- A file that is parsed ends in the state that its steps return. -/
theorem returns_of_ofParse {start : World → State} {m : ParseM α} {w w' : World} {a : α} {s : State}
    (h : WorldM.ofParse start m w = .ok (a, s) w') : Returns m (start w) a s ∧ w' = s.world := by
  unfold WorldM.ofParse at h
  split at h
  · rename_i hm
    cases h
    exact ⟨hm, rfl⟩
  · cases h

/-! ## Invariants -/

/-- From a state with `P` the step returns only to states with `P`, and its result has `Q`. -/
def Keeps (P : State → Prop) (m : ParseM α) (Q : α → Prop) : Prop :=
  ∀ s a s', P s → Returns m s a s' → P s' ∧ Q a

namespace Keeps

variable {P : State → Prop} {Q : α → Prop} {R : β → Prop}

theorem bind {m : ParseM α} {f : α → ParseM β} (hm : Keeps P m Q)
    (hf : ∀ a, Q a → Keeps P (f a) R) : Keeps P (m >>= f) R := by
  intro s b s' hs h
  obtain ⟨a, t, ha, hb⟩ := h.bind
  obtain ⟨ht, hq⟩ := hm s a t hs ha
  exact hf a hq t b s' ht hb

theorem pure {a : α} (h : Q a) : Keeps P (Pure.pure a) Q := by
  intro s b s' hs hr
  obtain ⟨rfl, rfl⟩ := hr.pure
  exact ⟨hs, h⟩

theorem throw (e : Error) : Keeps P (MonadExcept.throw e : ParseM α) Q :=
  fun _ _ _ _ h => h.throw.elim

theorem fail (pos : Option Position) (cause : Fault) : Keeps P (ParseM.fail pos cause) Q :=
  fun _ _ _ _ h => h.fail.elim

theorem unexpected (t : Token) (c : Context) : Keeps P (ParseM.unexpected t c) Q :=
  fun _ _ _ _ h => h.unexpected.elim

/-- Whatever follows a check that fails is only reached when it does not. -/
theorem guard {c : Prop} [Decidable c] {pos : Option Position} {cause : Fault} {m : Unit → ParseM α}
    (h : ¬c → Keeps P (m ()) Q) : Keeps P (if c then ParseM.fail pos cause >>= m else m ()) Q := by
  split
  · exact (fail (Q := fun _ => False) _ _).bind fun _ hf => hf.elim
  · rename_i hc
    exact h hc

theorem get : Keeps P (MonadState.get : ParseM State) P := by
  intro s x s' hs h
  obtain ⟨rfl, rfl⟩ := h.get
  exact ⟨hs, hs⟩

theorem set {x : State} (h : P x) : Keeps P (MonadStateOf.set x : ParseM PUnit) fun _ => True := by
  intro s u s' _ hr
  rw [hr.set]
  exact ⟨h, trivial⟩

theorem modify {f : State → State} (h : ∀ s, P s → P (f s)) :
    Keeps P (modify f : ParseM PUnit) fun _ => True := by
  intro s u s' hs hr
  rw [hr.modify]
  exact ⟨h s hs, trivial⟩

theorem mono {m : ParseM α} {Q' : α → Prop} (h : Keeps P m Q) (hq : ∀ a, Q a → Q' a) :
    Keeps P m Q' := fun s a s' hs hr => ⟨(h s a s' hs hr).1, hq a (h s a s' hs hr).2⟩

theorem rest : Keeps P ParseM.rest fun _ => True :=
  Keeps.get.bind fun _ _ => .pure trivial

theorem peek : Keeps P ParseM.peek fun _ => True :=
  Keeps.get.bind fun _ _ => .pure trivial

end Keeps

/-- The invariant says nothing but about the nodes of the region and the cache. -/
def OfNodes (P : State → Prop) : Prop :=
  ∀ s s', P s → s'.sink = s.sink → s'.world.cache = s.world.cache → P s'

namespace OfNodes

variable {P : State → Prop} (hP : OfNodes P)
include hP

theorem skip (n : Nat) : Keeps P (ParseM.skip n) fun _ => True :=
  .modify fun _ h => hP _ _ h rfl rfl

theorem setLast (pos : Option Position) : Keeps P (ParseM.setLast pos) fun _ => True :=
  .modify fun _ h => hP _ _ h rfl rfl

theorem trimLine : Keeps P ParseM.trimLine fun _ => True :=
  .modify fun _ h => hP _ _ h rfl rfl

theorem note (message : String) (fields : List (String × Text)) :
    Keeps P (ParseM.note message fields) fun _ => True :=
  .modify fun _ h => hP _ _ h rfl rfl

theorem declare (f : Declarations → Declarations) : Keeps P (ParseM.declare f) fun _ => True :=
  .modify fun _ h => hP _ _ h rfl rfl

theorem checkStop : Keeps P ParseM.checkStop fun _ => True := by
  intro s u s' hs h
  obtain ⟨budget, rfl⟩ := h.checkStop
  exact ⟨hP _ _ hs rfl rfl, trivial⟩

theorem untilBrace (pos : Option Position) (what : String) (ts : List Token) :
    Keeps P (ParseM.untilBrace pos what ts) fun _ => True := by
  induction ts with
  | nil => exact hP.checkStop.bind fun _ _ => .fail _ _
  | cons tok ts ih =>
    refine hP.checkStop.bind fun _ _ => ?_
    refine (hP.skip _).bind fun _ _ => ?_
    refine (hP.setLast _).bind fun _ _ => ?_
    split
    · split
      · exact .pure trivial
      · exact ih.bind fun _ _ => .pure trivial
    · exact ih.bind fun _ _ => .pure trivial

theorem closingTag : Keeps P ParseM.closingTag fun _ => True := by
  refine Keeps.peek.bind fun lt _ => ?_
  refine (hP.skip _).bind fun _ _ => ?_
  refine Keeps.rest.bind fun ts _ => ?_
  refine (hP.skip _).bind fun _ _ => ?_
  refine Keeps.peek.bind fun gt _ => ?_
  split
  · exact .fail _ _
  · refine (hP.skip _).bind fun _ _ => ?_
    split
    · exact .pure trivial
    · exact .unexpected _ _

theorem commentFrom (pos : Option Position) (ts : List Token) :
    Keeps P (ParseM.commentFrom pos ts) fun _ => True := by
  induction ts with
  | nil => exact hP.checkStop.bind fun _ _ => .fail _ _
  | cons tok ts ih =>
    refine hP.checkStop.bind fun _ _ => ?_
    split
    · exact (hP.skip _).bind fun _ _ => .pure trivial
    · exact (hP.skip _).bind fun _ _ => ih.bind fun _ _ => .pure trivial

end OfNodes
end ParseM

/-! ## Steps from a state -/

namespace ParseM
variable {β : Type} (s : State)

/-- What comes next depends on nothing but what the first step ends with. -/
theorem bind_congr_left {α : Type} {m m' : ParseM α} {s s' : State} (h : m s = m' s') (f : α → ParseM β) :
    (m >>= f) s = (m' >>= f) s' := by
  simp only [Bind.bind, EStateM.bind, h]

theorem get_bind (f : State → ParseM β) : (MonadState.get >>= f) s = f s s := rfl

theorem rest_bind (f : List Token → ParseM β) : (rest >>= f) s = f s.stream.rest s := rfl

theorem peek_bind (f : Option Token → ParseM β) : (peek >>= f) s = f s.stream.rest.head? s := rfl

theorem skip_bind (n : Nat) (f : Unit → ParseM β) :
    (skip n >>= f) s = f () { s with stream := s.stream.skip n } := rfl

theorem emitText_bind (t : Text) (pos : Option Position) (f : Unit → ParseM β) :
    (emitText t pos >>= f) s = f () (s.pushText pos t) := rfl

variable {s}

/-- Without a bound a compilation may go on. -/
theorem checkStop_unlimited (h : s.world.budget = none) : Returns checkStop s () s := by
  unfold Returns checkStop
  rw [get_bind, h]
  rfl

end ParseM

/-! ## Turns -/

namespace Registry
open ParseM
variable {ts : List Token} {s : State}

theorem goOn_unbroken {t : Tools} (h : s.broken = false) : goOn t s = t.resume s := by
  unfold goOn
  rw [get_bind, h]
  rfl

/-- What a turn does with the next token. -/
def act (r : Registry) (t : Tools) (tok : Token) (ts : List Token) : Action → ParseM (Option ClosingTag)
  | .text => do
    skip 1
    emitText (tok.space ++ tok.brief) tok.pos
    goOn t
  | .group f cs => do
    skip 1
    t.group f cs
    goOn t
  | .marker => do
    r.marker t tok
    goOn t
  | .tag lt => do
    match ← r.tagEntry t lt ts with
    | some closing => return some closing
    | none => goOn t
  | .identifier => do
    emit (← t.expression)
    goOn t
  | .literal l => do
    skip 1
    emit [.literal l]
    goOn t
  | .code p => do
    t.code p
    goOn t
  | .stop => return none

theorem turn_cons (r : Registry) (t : Tools) {tok : Token} (hb : s.world.budget = none)
    (hrest : s.stream.rest = tok :: ts) :
    r.turn t s = r.act t tok ts (tok.action s.markup s.atStatementStart) { s with last := tok.pos } := by
  unfold turn
  rw [(checkStop_unlimited hb).bind_eq, rest_bind, hrest]
  rfl

theorem turn_nil (r : Registry) (t : Tools) (hb : s.world.budget = none) (hrest : s.stream.rest = []) :
    r.turn t s = .ok none s := by
  unfold turn
  rw [(checkStop_unlimited hb).bind_eq, rest_bind, hrest]
  rfl

end Registry

/-! ## The children of an element -/

namespace Registry
open ParseM

/-- Reads what stands between the tags of an element. -/
def content (r : Registry) (t : Tools) (name : Text) : ParseM (Option ClosingTag) :=
  if r.isRawText name then r.rawTextWithin t name t.turns else t.parse

theorem children_eq (r : Registry) (t : Tools) (name : Text) : r.children t name = do
    let outer ← get
    set { outer with sink := [], markup := true, atStart := outer.atStatementStart }
    let closing ← r.content t name
    let inner ← get
    set { inner with sink := outer.sink, markup := outer.markup, atStart := outer.atStart }
    return (inner.sink.reverse, closing) := by
  unfold children content
  cases r.isRawText name <;> rfl

end Registry

/-! ## From a source to its nodes -/

theorem WorldM.bind_eq_ok {α β : Type} {m : WorldM α} {f : α → WorldM β} {b : β} {w w' : World}
    (h : (m >>= f) w = .ok b w') : ∃ a w₁, m w = .ok a w₁ ∧ f a w₁ = .ok b w' := by
  simp only [Bind.bind, EStateM.bind] at h
  split at h
  · rename_i a w₁ hm
    exact ⟨a, w₁, hm, h⟩
  · cases h

/-- The step returned something that passes a test. -/
def WorldM.returned {α : Type} (p : α → Bool) : EStateM.Result Error World α → Bool
  | .ok a _ => p a
  | .error .. => false

theorem WorldM.exists_of_returned {α : Type} {p : α → Bool} {r : EStateM.Result Error World α}
    (h : returned p r = true) : ∃ a w, r = .ok a w ∧ p a = true := by
  cases r with
  | ok a w => exact ⟨a, w, rfl, h⟩
  | error e w => cases h

namespace Registry
open ParseM

/-- Parses a template that the file at a path includes. -/
def embedIn (r : Registry) (settings : Settings) (n : Nat) (includers : List Text) (path : Text)
    (file src : Text) : ParseM Fragment := do
  let (nodes, declared) ← ofWorld (r.parseSource settings n (includers ++ [path]) file src)
  return { nodes, imports := declared.imports, injects := declared.injects }

/-- Reads the tokens of a file, and adds the white space after the last one. -/
def readTokens (r : Registry) (settings : Settings) (embed : Text → Text → ParseM Fragment) (n : Nat)
    (tokens : List Token) (trailing : Text) : ParseM Unit := do
  checkStop
  match ← r.loop settings embed n with
  | some c => fail c.pos (.strayClosingTag c.name)
  | none => emitText trailing (Stream.ofTokens tokens).stop

/-- A source that is lexed is parsed by reading its tokens. -/
theorem parseSource_lexed (r : Registry) (settings : Settings) (n : Nat) (includers : List Text)
    (path src : Text) (w : World) {tokens : List Token} {trailing : Text}
    (h : Token.lex src = .ok (tokens, trailing)) :
    r.parseSource settings (n + 1) includers path src w =
      match WorldM.ofParse (fun w => { world := w, path, includers, stream := .ofTokens tokens })
        (r.readTokens settings (r.embedIn settings n includers path) (r.turns w tokens) tokens
          trailing) w with
      | .ok (_, s) w => .ok (s.sink.reverse, s.declared) w
      | .error e w => .error (e.withPath path) w := by
  conv => lhs; unfold parseSource
  rw [h]
  rfl

/-- A source that is parsed: its tokens are read by the loop up to their end, and the white space
after the last one is added. -/
theorem parseSource_returns {r : Registry} {settings : Settings} {n : Nat} {includers : List Text}
    {path src : Text} {w w' : World} {ns : List Node} {d : Declarations}
    (h : r.parseSource settings (n + 1) includers path src w = .ok (ns, d) w') :
    ∃ tokens trailing budget s, Token.lex src = .ok (tokens, trailing) ∧
      Returns (r.loop settings (r.embedIn settings n includers path) (r.turns w tokens))
        { world := { w with budget }, path, includers, stream := .ofTokens tokens } none s ∧
      ns = (s.pushText (Stream.ofTokens tokens).stop trailing).sink.reverse ∧
      w' = s.world := by
  cases hl : Token.lex src with
  | error e =>
    unfold parseSource at h
    rw [hl] at h
    cases h
  | ok p =>
    obtain ⟨tokens, trailing⟩ := p
    rw [parseSource_lexed r settings n includers path src w hl] at h
    split at h
    · rename_i u s w₁ hp
      obtain ⟨hret, rfl⟩ := returns_of_ofParse hp
      cases h
      obtain ⟨_, s₁, hstop, hret₁⟩ := hret.bind
      obtain ⟨budget, rfl⟩ := hstop.checkStop
      obtain ⟨closing, s₂, hloop, hret₂⟩ := hret₁.bind
      cases closing with
      | some c => exact hret₂.fail.elim
      | none =>
        have hs := hret₂.modify
        obtain ⟨_, _, hf⟩ := s₂.pushText_frame (Stream.ofTokens tokens).stop trailing
        refine ⟨tokens, trailing, budget, s₂, rfl, hloop, by rw [hs], ?_⟩
        rw [hs, hf]
    · cases h

end Registry

theorem Template.parse_returns {r : Registry} {settings : Settings} {path src : Text} {w w' : World}
    {t : Template} (h : Template.parse r settings path src w = .ok t w') :
    r.parseSource settings (includeBound settings) [] path src w = .ok (t.nodes, t.declared) w' := by
  obtain ⟨⟨nodes, declared⟩, w₁, hp, hret⟩ := WorldM.bind_eq_ok h
  cases hret
  exact hp

end Atmark
