import Atmark.Proofs.Directive.Growth
import Atmark.Proofs.Parse.Budget
import Atmark.Proofs.Parse.Opening
import Atmark.Proofs.Parse.Passing

/-! Identifier expressions are as long as they can be. A `Selector` is what may follow an identifier in an
expression; each one is read as a step of its own (`selectors_step`), and where none stands the expression ends
or meets a postfix operator (`selectors_ends`). -/
namespace Atmark
open ParseM

/-- What follows an identifier in an expression, with no white space in or before it: a field, a path segment,
or a call or an index, which is a group in parentheses or brackets. -/
inductive Selector where
  | dot (pos namePos : Option Position) (name : Text)
  | path (pos pos' namePos : Option Position) (name : Text)
  | group (pos : Option Position) (d : Delimiter) (closeSpace : Text) (children : List Token) (hd : d ≠ .brace)

namespace Selector

/-- The tokens of a selector. -/
def tokens : Selector → List Token
  | .dot pos namePos name => [.punct ⟨pos, [], '.'⟩, .ident ⟨namePos, [], name⟩]
  | .path pos pos' namePos name => [.punct ⟨pos, [], ':'⟩, .punct ⟨pos', [], ':'⟩, .ident ⟨namePos, [], name⟩]
  | .group pos d closeSpace children _ => [.group ⟨pos, [], d, closeSpace⟩ children]

/-- Where a selector stands. -/
def pos : Selector → Option Position
  | .dot pos .. | .path pos .. | .group pos .. => pos

/-- Reads the nodes of a selector whose tokens have been passed over. The path separator is a dot, and the
tokens of a group are read as code. -/
def read (t : Tools) : Selector → ParseM (List Node)
  | .dot pos namePos name | .path pos _ namePos name =>
    return [.punct ⟨pos, [], '.'⟩, .ident ⟨namePos, [], name⟩]
  | .group pos d closeSpace children _ => do
    return [.group ⟨pos, [], d, closeSpace⟩ (← t.region ⟨pos, [], d, closeSpace⟩ children false)]

/-- The tokens of selectors that follow each other. -/
def run (sels : List Selector) : List Token := sels.flatMap tokens

/-- No selector stands at the head of the tokens. -/
def Ends (ts : List Token) : Prop := ∀ (sel : Selector) (us : List Token), ts ≠ sel.tokens ++ us

theorem tokens_eq_cons (sel : Selector) : ∃ t ts, sel.tokens = t :: ts ∧ t.space = [] ∧ t.pos = sel.pos := by
  cases sel <;> exact ⟨_, _, rfl, rfl, rfl⟩

/-- The tokens of a selector are not the beginning of those of another one. -/
theorem tokens_append_inj {sel sel' : Selector} {ts us : List Token} (h : sel.tokens ++ ts = sel'.tokens ++ us) :
    sel = sel' ∧ ts = us := by
  cases sel <;> cases sel' <;> simp_all [tokens]

/-- Selectors before tokens that go on with none are the longest ones. -/
theorem run_isPrefix {sels sels' : List Selector} {after : List Token} (hends : Ends after)
    (h : run sels' <+: run sels ++ after) : run sels' <+: run sels := by
  induction sels' generalizing sels with
  | nil => exact List.nil_prefix
  | cons sel' sels' ih =>
    obtain ⟨us, hus⟩ := h
    cases sels with
    | nil => exact (hends sel' (run sels' ++ us) (by simpa [run] using hus.symm)).elim
    | cons sel sels =>
      simp only [run, List.flatMap_cons, List.append_assoc] at hus
      obtain ⟨rfl, hrest⟩ := tokens_append_inj hus
      have hshorter : run sels' <+: run sels ++ after := ⟨us, hrest⟩
      obtain ⟨vs, hvs⟩ := ih hshorter
      exact ⟨vs, by simp only [run, List.flatMap_cons, List.append_assoc] at hvs ⊢; rw [hvs]⟩

end Selector

namespace Tools
variable {t : Tools}

/-- The tokens begin with a postfix operator: `?` or `!` with no white space before it, and right behind it a
full stop, parentheses or brackets. -/
def postfixAt? : List Token → Option Punct
  | .punct p :: next :: _ =>
    if p.space.isEmpty && (p.char = '?' || p.char = '!') && followsPostfix next then some p else none
  | _ => none

/-- A selector is passed over and read, and the expression goes on behind it. -/
theorem selectors_step (sel : Selector) (ts : List Token) : t.selectors (sel.tokens ++ ts) = do
    checkStop
    setLast sel.pos
    skip sel.tokens.length
    let ns ← sel.read t
    return ns ++ (← t.selectors ts) := by
  cases sel with
  | dot pos namePos name =>
    simp only [Selector.tokens, List.cons_append, List.nil_append]
    conv => lhs; unfold selectors
    rfl
  | path pos pos' namePos name =>
    simp only [Selector.tokens, List.cons_append, List.nil_append]
    conv => lhs; unfold selectors
    rfl
  | group pos d closeSpace children hd =>
    simp only [Selector.tokens, List.cons_append, List.nil_append]
    conv => lhs; unfold selectors
    simp [Token.glued, Token.space, hd, Selector.read, Token.pos, Selector.pos]

@[simp] theorem postfixAt?_punct (p : Punct) (ts : List Token) : postfixAt? (.punct p :: ts) =
    if p.space.isEmpty && (p.char = '?' || p.char = '!') && ts.head?.any followsPostfix then some p else none := by
  cases ts <;> simp [postfixAt?]

/-- The end of an expression before tokens, where a postfix operator must not stand. -/
def ending (ts : List Token) : ParseM (List Node) :=
  match postfixAt? ts with
  | some p => fail p.pos (.postfixOperator p.char)
  | none => return []

/-- Where no selector stands the expression ends. -/
theorem selectors_ending {tok : Token} {ts : List Token} (hglued : tok.glued = true)
    (h : Selector.Ends (tok :: ts)) : t.selectors (tok :: ts) = (do
      checkStop
      setLast tok.pos
      ending (tok :: ts)) := by
  have hspace : tok.space = [] := by simpa [Token.glued] using hglued
  conv => lhs; unfold selectors
  cases tok with
  | ident n => simp [hglued, ending, postfixAt?]
  | literal l => simp [hglued, ending, postfixAt?]
  | group f cs =>
    obtain ⟨pos, space, d, closeSpace⟩ := f
    obtain rfl : space = [] := hspace
    by_cases hd : d = .brace
    · subst hd
      simp [hglued, ending, postfixAt?]
    · exact (h (.group pos d closeSpace cs hd) ts rfl).elim
  | punct p =>
    obtain ⟨pos, space, char⟩ := p
    obtain rfl : space = [] := hspace
    by_cases hdot : char = '.'
    · subst hdot
      rcases ts with _ | ⟨⟨namePos, space, name⟩ | _ | _ | _, ts⟩
      case cons.ident =>
        have hspaced : space ≠ [] := by
          rintro rfl
          exact h (.dot pos namePos name) ts rfl
        simp [hglued, hspaced, ending]
      all_goals simp [hglued, ending]
    by_cases hcolon : char = ':'
    · subst hcolon
      by_cases hcolons : colons (.punct ⟨pos, [], ':'⟩ :: ts) = 2
      · rcases ts with _ | ⟨c, _ | ⟨⟨namePos, space, name⟩ | _ | _ | _, ts⟩⟩
        case cons.cons.ident =>
          have hspaced : space ≠ [] := by
            rintro rfl
            obtain ⟨hc, hcspace⟩ : c.isPunct ':' = true ∧ c.space = [] := by
              have hn : Token.isPunct ':' (.ident ⟨namePos, [], name⟩) = false := rfl
              simpa [colons, Token.isPunct, gluedColons, Token.glued] using hcolons
            rw [Token.eq_punct hc, hcspace] at h
            exact h (.path pos c.pos namePos name) ts rfl
          simp [hglued, hspaced, ending, hcolons]
        all_goals simp [hglued, ending]
      · simp [hglued, ending, hcolons]
    by_cases hpostfix : char = '?' ∨ char = '!'
    · by_cases hnext : ts.head?.any followsPostfix = true
      · simp [hglued, ending, hdot, hcolon, hpostfix, hnext]
      · simp [hglued, ending, hdot, hcolon, hpostfix, hnext]
    · simp [hglued, ending, hdot, hcolon, hpostfix]

theorem selectors_spaced {tok : Token} {ts : List Token} (hspaced : tok.glued = false) :
    t.selectors (tok :: ts) = (do
      checkStop
      return []) := by
  conv => lhs; unfold selectors
  simp [hspaced]

/-- From `s` to `u` the selectors are read one after another, each behind its tokens, and give the nodes. -/
inductive Selects (t : Tools) : List Selector → State → List Node → State → Prop
  | nil {s u : State} : s.Passes [] u → Selects t [] s [] u
  | cons {sel : Selector} {sels : List Selector} {s v w u : State} {ns ms : List Node} :
      s.Passes sel.tokens v → Returns (sel.read t) v ns w → Selects t sels w ms u →
      Selects t (sel :: sels) s (ns ++ ms) u

/-- Reading the selectors ends with an error in one of them: the group of a call or an index. -/
inductive Fails (t : Tools) : List Selector → State → Error → State → Prop
  | here {sel : Selector} {sels : List Selector} {s v u : State} {e : Error} :
      s.Passes sel.tokens v → sel.read t v = .error e u → Fails t (sel :: sels) s e u
  | later {sel : Selector} {sels : List Selector} {s v w u : State} {ns : List Node} {e : Error} :
      s.Passes sel.tokens v → Returns (sel.read t) v ns w → Fails t sels w e u → Fails t (sel :: sels) s e u

end Tools

namespace ParseM
variable {α β : Type} {s u : State}

/-- The step returns as `P` says, or fails as `E` says. -/
def Leads (m : ParseM α) (s : State) (P : α → State → Prop) (E : Error → State → Prop) : Prop :=
  match m s with
  | .ok a u => P a u
  | .error e u => E e u

namespace Leads
variable {m : ParseM α} {f : α → ParseM β} {P : α → State → Prop} {Q : β → State → Prop}
  {E : Error → State → Prop}

theorem bind (h : Leads m s P E) (hf : ∀ a u, Returns m s a u → P a u → Leads (f a) u Q E) :
    Leads (m >>= f) s Q E := by
  unfold Leads at h ⊢
  simp only [Bind.bind, EStateM.bind]
  cases hm : m s with
  | ok a u =>
    rw [hm] at h
    exact hf a u hm h
  | error e u =>
    rw [hm] at h
    exact h

/-- A step that returns comes first. -/
theorem next {a : α} {u : State} (h : Returns m s a u) (hf : Leads (f a) u Q E) : Leads (m >>= f) s Q E := by
  unfold Returns at h
  simp only [Leads, Bind.bind, EStateM.bind, h]
  exact hf

/-- What a step does, as far as it returns. -/
theorem self (hE : ∀ e u, m s = .error e u → E e u) : Leads m s (fun _ _ => True) E := by
  unfold Leads
  cases hm : m s with
  | ok a u => trivial
  | error e u => exact hE e u hm

theorem mono {P' : α → State → Prop} {E' : Error → State → Prop} (h : Leads m s P E)
    (hP : ∀ a u, P a u → P' a u) (hE : ∀ e u, E e u → E' e u) : Leads m s P' E' := by
  unfold Leads at h ⊢
  cases hm : m s with
  | ok a u => rw [hm] at h; exact hP a u h
  | error e u => rw [hm] at h; exact hE e u h

end Leads

/-- A step that takes checks evenly leaves no limit where there was none. -/
theorem Metered.unlimited {m : ParseM α} (hm : m.Metered) {a : α} (hb : s.world.budget = none)
    (h : Returns m s a u) : u.world.budget = none := by
  obtain ⟨_, _, hcosts⟩ := hm s
  have hs : s.within none = s := by rw [← hb]; rfl
  have hrun := hcosts.unlimited
  unfold Returns at h
  rw [hs, h] at hrun
  have hu : u.within none = u := (EStateM.Result.ok.inj hrun).2
  rw [← hu]
  rfl

end ParseM

namespace Selector

/-- The tokens begin with selectors that are followed by none. -/
theorem exists_run (ts : List Token) : ∃ sels after, ts = run sels ++ after ∧ Ends after := by
  -- each selector takes at least one token
  induction hn : ts.length using Nat.strongRecOn generalizing ts with
  | ind n ih =>
    by_cases h : Ends ts
    · exact ⟨[], ts, rfl, h⟩
    · simp only [Ends, not_forall, not_not] at h
      obtain ⟨sel, us, rfl⟩ := h
      obtain ⟨t, ts, htokens, -⟩ := sel.tokens_eq_cons
      have hlt : us.length < n := by
        rw [← hn, htokens, List.length_append, List.length_cons]
        omega
      obtain ⟨sels, after, rfl, hends⟩ := ih _ hlt us rfl
      exact ⟨sel :: sels, after, by simp [run], hends⟩

variable {t : Tools}

theorem read_idle (sel : Selector) : Idle (sel.read t) := by
  cases sel with
  | dot | path =>
    intro s ns u h
    obtain ⟨rfl, rfl⟩ := h.pure
    exact ⟨rfl, fun _ => rfl⟩
  | group pos d closeSpace children =>
    intro s ns u h
    obtain ⟨nodes, v, hregion, hpure⟩ := h.bind
    obtain ⟨rfl, rfl⟩ := hpure.pure
    obtain ⟨hstream, hfacing⟩ := Tools.region_idle _ _ _ _ _ _ hregion
    exact ⟨hstream, fun ts => (hfacing ts).andThen rfl⟩

theorem read_metered (ht : t.Keeps Metered) (sel : Selector) : (sel.read t).Metered := by
  cases sel with
  | dot | path => exact metered_closed.pure _
  | group => exact metered_closed.bind (metered_closed.region ht _ _ _) fun _ => metered_closed.pure _

end Selector

namespace Tools
variable {t : Tools} {s : State}

/-- An expression before tokens that go on with no selector ends there, or fails at a postfix operator. -/
theorem selectors_done {after : List Token} (hb : s.world.budget = none) (hends : Selector.Ends after) :
    (t.selectors after).Leads s (fun ns u => postfixAt? after = none ∧ ns = [] ∧ s.Passes [] u)
      fun e _ => ∃ p, postfixAt? after = some p ∧ e = Error.at? p.pos (.postfixOperator p.char) := by
  obtain ⟨v, hstop, hv⟩ := checkStop_passes hb
  cases after with
  | nil => exact Leads.next hstop ⟨rfl, rfl, hv⟩
  | cons tok ts =>
    cases hglued : tok.glued with
    | false =>
      rw [selectors_spaced hglued]
      refine Leads.next hstop ⟨?_, rfl, hv⟩
      cases tok with
      | punct p =>
        rw [postfixAt?_punct]
        have hspace : p.space.isEmpty = false := hglued
        simp [hspace]
      | _ => rfl
    | true =>
      rw [selectors_ending hglued hends]
      obtain ⟨w, hlast, hw⟩ := setLast_passes v tok.pos
      refine Leads.next hstop (Leads.next hlast ?_)
      unfold ending
      cases hpostfix : postfixAt? (tok :: ts) with
      | none => exact ⟨rfl, rfl, hv.trans hw⟩
      | some p => exact ⟨p, rfl, rfl⟩

/-- The selectors before such tokens are read, as far as their groups can be read. -/
theorem selectors_leads (ht : t.Keeps Metered) {sels : List Selector} {after : List Token}
    (hb : s.world.budget = none) (hs : s.stream.rest = Selector.run sels ++ after) (hends : Selector.Ends after) :
    (t.selectors (Selector.run sels ++ after)).Leads s
      (fun ns u => postfixAt? after = none ∧ t.Selects sels s ns u)
      fun e u => (∃ p, postfixAt? after = some p ∧ e = Error.at? p.pos (.postfixOperator p.char)) ∨
        t.Fails sels s e u := by
  induction sels generalizing s with
  | nil =>
    refine (selectors_done hb hends).mono (fun ns u => ?_) fun e u h => .inl h
    rintro ⟨hnone, rfl, hpasses⟩
    exact ⟨hnone, .nil hpasses⟩
  | cons sel sels ih =>
    have hsplit : Selector.run (sel :: sels) ++ after = sel.tokens ++ (Selector.run sels ++ after) := by
      simp [Selector.run]
    rw [hsplit] at hs ⊢
    rw [selectors_step]
    obtain ⟨s₁, hstop, hs₁⟩ := checkStop_passes hb
    obtain ⟨s₂, hlast, hs₂⟩ := setLast_passes s₁ sel.pos
    obtain ⟨s₃, hskip, hs₃⟩ := skip_passes sel.tokens ((hs₁.trans hs₂).rest_eq hs)
    have hpasses : s.Passes sel.tokens s₃ := (hs₁.trans hs₂).trans hs₃
    refine Leads.next hstop (Leads.next hlast (Leads.next hskip ?_))
    refine (Leads.self fun e u he => .inr (.here hpasses he)).bind fun ns u hread _ => ?_
    have hbudget := (sel.read_metered ht).unlimited (hpasses.unlimited hb) hread
    have hrest : u.stream.rest = Selector.run sels ++ after := by
      rw [(sel.read_idle _ _ _ hread).1, hpasses.rest_eq hs]
    refine Leads.bind ((ih hbudget hrest).mono (fun _ _ h => h) fun e v h => ?_) fun ms v _ h => ?_
    · exact h.imp_right fun hfails => .later hpasses hread hfails
    · exact ⟨h.1, .cons hpasses hread h.2⟩

theorem Selects.stream_eq {sels : List Selector} {u : State} {ns : List Node} (h : t.Selects sels s ns u) :
    u.stream = s.stream.skip (Selector.run sels).length := by
  induction h with
  | nil hpasses => exact hpasses.stream_eq
  | @cons sel sels s v w u ns ms hpasses hread _ ih =>
    rw [ih, (sel.read_idle _ _ _ hread).1, hpasses.stream_eq, Stream.skip_skip]
    simp [Selector.run]

/-- An identifier expression takes the longest run of selectors behind its identifier: every run that stands
there begins the one that is taken. It returns the identifier and the nodes of the run, and then no postfix
operator stands behind the run. It fails only at a postfix operator behind the run, and says so, or in a group
of the run that cannot be read. -/
theorem expression_longest (ht : t.Keeps Metered) {id : Ident} {ts : List Token} (hb : s.world.budget = none)
    (hs : s.stream.rest = .ident id :: ts) :
    ∃ (sels : List Selector) (after : List Token), ts = Selector.run sels ++ after ∧
      (∀ sels', Selector.run sels' <+: ts → Selector.run sels' <+: Selector.run sels) ∧
      t.expression.Leads s
        (fun ns u => postfixAt? after = none ∧ u.stream = s.stream.skip (1 + (Selector.run sels).length) ∧
          ∃ v ms, s.Passes [.ident id] v ∧ t.Selects sels v ms u ∧ ns = .ident id :: ms)
        (fun e u => (∃ p, postfixAt? after = some p ∧ e = Error.at? p.pos (.postfixOperator p.char)) ∨
          ∃ v, s.Passes [.ident id] v ∧ t.Fails sels v e u) := by
  obtain ⟨sels, after, rfl, hends⟩ := Selector.exists_run ts
  refine ⟨sels, after, rfl, fun sels' => Selector.run_isPrefix hends, ?_⟩
  obtain ⟨v, hskip, hv⟩ := skip_passes [.ident id] hs
  have hrest := hv.rest_eq hs
  have hlook : Returns rest s (.ident id :: (Selector.run sels ++ after)) s := by
    rw [← hs]
    rfl
  refine Leads.next hlook (Leads.next hskip (Leads.next (m := rest) (a := v.stream.rest) (u := v) rfl ?_))
  rw [hrest]
  refine Leads.bind ((selectors_leads ht (hv.unlimited hb) hrest hends).mono (fun _ _ h => h) fun e u h => ?_)
    fun ms u _ h => ?_
  · exact h.imp_right fun hfails => ⟨v, hv, hfails⟩
  · refine ⟨h.1, ?_, v, ms, hv, h.2, rfl⟩
    rw [h.2.stream_eq, hv.stream_eq, Stream.skip_skip]
    rfl

/-- What stands behind the identifier in `user.Name(x)? y`. -/
def callTail : List Token :=
  [.mark none '.', .word none (utf8 "Name"), .enclose none .parenthesis [.word none (utf8 "x")], .mark none '?',
    .ident ⟨none, utf8 " ", utf8 "y"⟩]

/-- The expression `user.Name(x)`, behind it text. -/
def callState : State :=
  { world := {}, path := [], includers := [], stream := .ofTokens (.word none (utf8 "user") :: callTail) }

def callTools : Tools := Registry.standard.tools { markdown := .ok } (fun _ _ => throw .exhausted) 9

theorem callTools_metered : callTools.Keeps Metered where
  resume := metered_closed.loop Registry.standard_metered.keeps _ (fun _ _ => metered_closed.throw rfl) 9
  embed _ _ := metered_closed.throw rfl

theorem expression_longest_call : ∃ sels after, callTail = Selector.run sels ++ after ∧
    Selector.run [.dot none none (utf8 "Name"),
      .group none .parenthesis [] [.word none (utf8 "x")] (by decide)] <+: Selector.run sels ∧
    ∃ ns u, Returns callTools.expression callState ns u ∧ postfixAt? after = none ∧
      u.stream = callState.stream.skip (1 + (Selector.run sels).length) := by
  obtain ⟨sels, after, hts, hlongest, hlead⟩ := expression_longest callTools_metered (s := callState) rfl rfl
  obtain ⟨ns, u, hret, -⟩ :=
    exists_of_passes (p := fun _ _ => true) callTools.expression callState (by decide +kernel)
  unfold Leads at hlead
  rw [hret] at hlead
  exact ⟨sels, after, hts, hlongest _ ⟨_, rfl⟩, ns, u, hret, hlead.1, hlead.2.1⟩

end Tools
end Atmark
