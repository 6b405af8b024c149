import Atmark.Proofs.Code.Bare
import Atmark.Proofs.Directive.Closed

/-! Giving up a parse. Each check takes one from the number of checks that find that the compilation may go
on, and nothing else looks at that number. So a parse without a limit has a fixed number of checks
(`ParseM.Costs`): with as many or more it ends in the same way, with fewer it ends with the error that the
compilation was given up, and then the cache has some of the first fragments that the whole parse keeps. -/
namespace Atmark
open ParseM

/-- The cache after fragments are kept under their keys, one after another. -/
def Cache.keepAll (c : Cache) (kept : List (Text × Fragment)) : Cache :=
  kept.foldl (fun c e => c.put e.1 e.2) c

theorem Cache.keepAll_append (c : Cache) (kept kept' : List (Text × Fragment)) :
    c.keepAll (kept ++ kept') = (c.keepAll kept).keepAll kept' := List.foldl_append

/-- The world with another number of checks left. -/
def World.within (w : World) (budget : Option Nat) : World := { w with budget }

/-! ## Ends of steps -/

namespace Run
variable {σ α : Type}

/-- The state that a step leaves. -/
def state : EStateM.Result Error σ α → σ
  | .ok _ s | .error _ s => s

/-- The end of a step with another state left. -/
def map (f : σ → σ) : EStateM.Result Error σ α → EStateM.Result Error σ α
  | .ok a s => .ok a (f s)
  | .error e s => .error e (f s)

/-- The step ended with the error that the compilation was given up. -/
def isStopped : EStateM.Result Error σ α → Bool
  | .ok _ _ => false
  | .error e _ => e.isStop

end Run

/-! ## The checks of a step -/

/-- What a step costs in a state: how many checks it makes, and which fragments it keeps. -/
structure ParseM.Costs {α : Type} (m : ParseM α) (s : State) (checks : Nat)
    (kept : List (Text × Fragment)) : Prop where
  unlimited : Run.map (·.within none) (m (s.within none)) = m (s.within none)
  unstopped : Run.isStopped (m (s.within none)) = false
  cache : (Run.state (m (s.within none))).world.cache = s.world.cache.map (·.keepAll kept)
  enough : ∀ n, m (s.within (some (n + checks))) = Run.map (·.within (some n)) (m (s.within none))
  short : ∀ n < checks, Run.isStopped (m (s.within (some n))) = true ∧
    ∃ kept', kept' <+: kept ∧
      (Run.state (m (s.within (some n)))).world.cache = s.world.cache.map (·.keepAll kept')

/-- From each state the step has its cost. -/
def ParseM.Metered {α : Type} (m : ParseM α) : Prop := ∀ s, ∃ checks kept, m.Costs s checks kept

namespace ParseM.Costs
variable {α β : Type} {m : ParseM α} {s : State} {checks : Nat} {kept : List (Text × Fragment)}

/-- A step whose runs are those of another one, with another end made of theirs. -/
theorem transfer (h : m.Costs s checks kept) {m' : ParseM β} {s' : State}
    (g : EStateM.Result Error State α → EStateM.Result Error State β)
    (same : ∀ b, m' (s'.within b) = g (m (s.within b)))
    (map : ∀ b r, g (Run.map (·.within b) r) = Run.map (·.within b) (g r))
    (stopped : ∀ r, Run.isStopped (g r) = Run.isStopped r)
    (world : ∀ r, (Run.state (g r)).world = (Run.state r).world)
    (cache : s'.world.cache = s.world.cache) : m'.Costs s' checks kept where
  unlimited := by rw [same, ← map, h.unlimited]
  unstopped := by rw [same, stopped, h.unstopped]
  cache := by rw [same, world, h.cache, cache]
  enough n := by rw [same, same, h.enough, map]
  short n hn := by
    rw [same, stopped, world, cache]
    exact h.short n hn

theorem run_bind_ok {f : α → ParseM β} {a : α} {t : State} (h : m s = .ok a t) :
    (m >>= f) s = f a t := by
  simp only [Bind.bind, EStateM.bind, h]

theorem run_bind_error {f : α → ParseM β} {e : Error} {t : State} (h : m s = .error e t) :
    (m >>= f) s = .error e t := by
  simp only [Bind.bind, EStateM.bind, h]

/-- A step without checks that does the same whatever is left. -/
theorem of_free (f : EStateM.Result Error State α) (h : ∀ b, m (s.within b) = Run.map (·.within b) f)
    (hstop : Run.isStopped f = false)
    (hcache : (Run.state f).world.cache = s.world.cache.map (·.keepAll kept)) :
    m.Costs s 0 kept where
  unlimited := by rw [h]; cases f <;> rfl
  unstopped := by rw [h]; cases f <;> exact hstop
  cache := by rw [h]; cases f <;> exact hcache
  enough n := by rw [h, h]; cases f <;> rfl
  short n hn := absurd hn (Nat.not_lt_zero n)

theorem keepAll_nil (c : Option Cache) : c.map (·.keepAll []) = c := Option.map_id_apply

theorem keepAll_append (c : Option Cache) (kept kept' : List (Text × Fragment)) :
    (c.map (·.keepAll kept)).map (·.keepAll kept') = c.map (·.keepAll (kept ++ kept')) := by
  rw [Option.map_map]
  congr 1
  funext c
  exact (c.keepAll_append kept kept').symm

/-- The checks of two steps add up, and so do the fragments that they keep. -/
theorem bind {f : α → ParseM β} (h : m.Costs s checks kept) (hf : ∀ a, (f a).Metered) :
    ∃ checks kept, (m >>= f).Costs s checks kept := by
  obtain ⟨hunlimited, hunstopped, hcache, henough, hshort⟩ := h
  -- Where the first step is given up, so is the whole.
  have hgivenUp (n : Nat) (kept' : List (Text × Fragment)) (hn : n < checks) (hpre : kept <+: kept') :
      Run.isStopped ((m >>= f) (s.within (some n))) = true ∧
        ∃ kept'', kept'' <+: kept' ∧ (Run.state ((m >>= f) (s.within (some n)))).world.cache =
          s.world.cache.map (·.keepAll kept'') := by
    obtain ⟨hstop, kept'', hkept, hc⟩ := hshort n hn
    cases hm : m (s.within (some n)) with
    | ok a t =>
      rw [hm] at hstop
      cases hstop
    | error e t =>
      rw [hm] at hstop hc
      rw [run_bind_error hm]
      exact ⟨hstop, kept'', hkept.trans hpre, hc⟩
  cases hm : m (s.within none) with
  | error e t =>
    rw [hm] at hunlimited hunstopped hcache henough
    have hends := run_bind_error (f := f) hm
    refine ⟨checks, kept, ?_, ?_, ?_, fun n => ?_, fun n hn => hgivenUp n kept hn (List.prefix_refl _)⟩
    · rw [hends]
      exact congrArg (EStateM.Result.error e) (EStateM.Result.error.inj hunlimited).2
    · rw [hends]
      exact hunstopped
    · rw [hends]
      exact hcache
    · rw [run_bind_error (henough n), hends]
      rfl
  | ok a t =>
    rw [hm] at hunlimited hcache henough
    obtain ⟨checks', kept', hrest⟩ := hf a t
    have ht : t.within none = t := (EStateM.Result.ok.inj hunlimited).2
    have hends : (m >>= f) (s.within none) = f a (t.within none) := by
      rw [run_bind_ok hm, ht]
    change t.world.cache = _ at hcache
    refine ⟨checks' + checks, kept ++ kept', ?_, ?_, ?_, fun n => ?_, fun n hn => ?_⟩
    · rw [hends, hrest.unlimited]
    · rw [hends, hrest.unstopped]
    · rw [hends, hrest.cache, hcache, keepAll_append]
    · rw [hends, ← hrest.enough n, ← Nat.add_assoc]
      exact run_bind_ok (henough (n + checks'))
    · by_cases hlt : n < checks
      · exact hgivenUp n (kept ++ kept') hlt (List.prefix_append kept kept')
      · obtain ⟨k, rfl⟩ : ∃ k, n = k + checks := ⟨n - checks, by omega⟩
        rw [run_bind_ok (henough k)]
        obtain ⟨hstop, kept'', hkept, hc⟩ := hrest.short k (by omega)
        refine ⟨hstop, kept ++ kept'', (List.prefix_append_right_inj kept).2 hkept, ?_⟩
        rw [hc, hcache, keepAll_append]

end ParseM.Costs

/-! ## The parser -/

/-- Every step that is composed of the basic ones has its cost. -/
theorem ParseM.metered_closed : ParseM.Closed ParseM.Metered where
  pure a := fun s => ⟨0, [], .of_free (.ok a s) (fun _ => rfl) rfl (Costs.keepAll_nil _).symm⟩
  bind hm hf := fun s => by
    obtain ⟨_, _, h⟩ := hm s
    exact h.bind hf
  throw {_ e} he := fun s => ⟨0, [], .of_free (.error e s) (fun _ => rfl) he (Costs.keepAll_nil _).symm⟩
  look {_ f} hf hm := fun s => by
    obtain ⟨checks, kept, h⟩ := hm s s
    refine ⟨checks, kept, h.transfer id (fun b => ?_) (fun _ _ => rfl) (fun _ => rfl) (fun _ => rfl) rfl⟩
    rw [id, ← hf s b]
    rfl
  change {f} hf hcache := fun s => by
    refine ⟨0, [], .of_free (.ok () (f s)) (fun b => ?_) rfl ?_⟩
    · exact congrArg (EStateM.Result.ok ()) (hf s b)
    · exact (hcache s).trans (Costs.keepAll_nil _).symm
  keep key f := fun s => by
    refine ⟨0, [(key, f)], .of_free (.ok () (s.kept key f)) (fun _ => rfl) rfl ?_⟩
    rfl
  checkStop := fun s => by
    refine ⟨1, [], rfl, rfl, (Costs.keepAll_nil _).symm, fun n => rfl, fun n hn => ?_⟩
    obtain rfl : n = 0 := by omega
    exact ⟨rfl, [], List.prefix_refl _, (Costs.keepAll_nil _).symm⟩

theorem Error.isStop_withPath (path : Text) (e : Error) : (e.withPath path).isStop = e.isStop := by
  cases e <;> rfl

theorem Token.isStop_nest {gs : List OpenGroup} {done : List Token} {ls : List Lexeme} {e : Ending}
    {err : Error} (h : nest gs done ls e = .error err) : err.isStop = false := by
  fun_induction nest gs done ls e with
  | case1 | case3 | case6 | case8 =>
    cases h
    rfl
  | case2 => cases h
  | case4 _ _ _ _ _ ih | case5 _ _ _ _ _ _ _ ih | case7 _ _ _ _ _ _ _ _ _ _ ih => exact ih h

theorem Token.isStop_lex {src : Text} {e : Error} (h : lex src = .error e) : e.isStop = false :=
  isStop_nest h

/-- The directives and hooks of the registry have their costs, and no directive goes back. -/
structure Registry.Metered (r : Registry) : Prop where
  keeps : r.Keeps ParseM.Metered
  advances : r.directives.any (·.rereads) = false

theorem Registry.standard_metered : standard.Metered := ⟨standard_keeps metered_closed, rfl⟩

/-- The end of the run over the tokens of a file, seen from outside of the file. -/
def ParseM.leave (path : Text) (s : State) :
    EStateM.Result Error State Unit → EStateM.Result Error State (List Node × Declarations)
  | .ok _ t => .ok (t.sink.reverse, t.declared) { s with world := t.world }
  | .error e t => .error (e.withPath path) { s with world := t.world }

/-- The source of a file has its cost, and so have the sources of the templates that it includes. -/
theorem Registry.parseSource_metered {r : Registry} (hr : r.Metered) (settings : Settings) (n : Nat)
    (includers : List Text) (path src : Text) :
    (ofWorld (r.parseSource settings n includers path src)).Metered := by
  induction n generalizing includers path src with
  | zero => exact metered_closed.throw rfl
  | succ n ih =>
    have hembed (file src : Text) :
        (r.embedIn settings n includers path file src).Metered :=
      metered_closed.bind (ih _ _ _) fun _ => metered_closed.pure _
    intro s
    cases hlex : Token.lex src with
    | error e =>
      refine ⟨0, [], .of_free (.error (e.withPath path) s) (fun b => ?_) ?_ (Costs.keepAll_nil _).symm⟩
      · simp only [ofWorld, parseSource, hlex]
        rfl
      · exact (e.isStop_withPath path).trans (Token.isStop_lex hlex)
    | ok p =>
      obtain ⟨tokens, trailing⟩ := p
      -- The run over the tokens starts in a state of its own and leaves its world to the outer one.
      let inner : State := { world := s.world, path, includers, stream := .ofTokens tokens }
      obtain ⟨checks, kept, h⟩ := metered_closed.readTokens hr.keeps settings hembed
        (r.turns s.world tokens) tokens trailing inner
      refine ⟨checks, kept, h.transfer (leave path s) (fun b => ?_) ?_ ?_ ?_ rfl⟩
      · have hturns : r.turns (s.within b).world tokens = r.turns s.world tokens := by
          simp only [turns, hr.advances, Bool.false_eq_true, if_false]
        simp only [ofWorld, parseSource_lexed _ _ _ _ _ _ _ hlex, hturns, WorldM.ofParse]
        generalize r.readTokens settings (r.embedIn settings n includers path)
          (r.turns s.world tokens) tokens trailing = m
        have hstart : ({ world := (s.within b).world, path, includers, stream := .ofTokens tokens } :
            State) = inner.within b := rfl
        rw [hstart]
        cases m (inner.within b) <;> rfl
      · intro b r
        cases r <;> rfl
      · intro r
        cases r with
        | ok _ t => rfl
        | error e t => exact e.isStop_withPath path
      · intro r
        cases r <;> rfl

/-! ## Templates -/

theorem ParseM.ofWorld_bind {α β : Type} (m : WorldM α) (f : α → WorldM β) :
    ofWorld (m >>= f) = ofWorld m >>= fun a => ofWorld (f a) := by
  funext s
  simp only [ofWorld, Bind.bind, EStateM.bind]
  cases m s.world <;> rfl

namespace ParseM.Costs
variable {α : Type} {m : WorldM α} {s : State} {checks : Nat} {kept : List (Text × Fragment)}

/-- The end of a step outside a file, taken inside it. -/
def carry (s : State) : EStateM.Result Error World α → EStateM.Result Error State α
  | .ok a w => .ok a { s with world := w }
  | .error e w => .error e { s with world := w }

theorem carry_injective {r r' : EStateM.Result Error World α} (h : carry s r = carry s r') : r = r' := by
  cases r <;> cases r' <;> simp_all [carry]

theorem ofWorld_within (b : Option Nat) : ofWorld m (s.within b) = carry s (m (s.world.within b)) := by
  unfold ofWorld
  change (match m (s.world.within b) with
    | .ok a w => EStateM.Result.ok a { s.within b with world := w }
    | .error e w => .error e { s.within b with world := w }) = _
  cases m (s.world.within b) <;> rfl

variable (h : (ofWorld m).Costs s checks kept)
include h

theorem cache_world :
    (Run.state (m (s.world.within none))).cache = s.world.cache.map (·.keepAll kept) := by
  have hcache := h.cache
  rw [ofWorld_within] at hcache
  cases hm : m (s.world.within none) <;> rw [hm] at hcache <;> exact hcache

theorem unstopped_world : Run.isStopped (m (s.world.within none)) = false := by
  have hstop := h.unstopped
  rw [ofWorld_within] at hstop
  cases hm : m (s.world.within none) <;> rw [hm] at hstop <;> exact hstop

theorem unlimited_world : (Run.state (m (s.world.within none))).budget = none := by
  have hunlimited := congrArg (fun r => (Run.state r).world.budget) h.unlimited
  rw [ofWorld_within] at hunlimited
  cases hm : m (s.world.within none) <;> rw [hm] at hunlimited <;> exact hunlimited.symm

theorem enough_world {n : Nat} (hn : checks ≤ n) :
    m (s.world.within (some n)) = Run.map (·.within (some (n - checks))) (m (s.world.within none)) := by
  have henough := h.enough (n - checks)
  rw [Nat.sub_add_cancel hn, ofWorld_within, ofWorld_within] at henough
  refine carry_injective (s := s) (henough.trans ?_)
  cases m (s.world.within none) <;> rfl

theorem short_world {n : Nat} (hn : n < checks) :
    Run.isStopped (m (s.world.within (some n))) = true ∧ ∃ kept', kept' <+: kept ∧
      (Run.state (m (s.world.within (some n)))).cache = s.world.cache.map (·.keepAll kept') := by
  have hshort := h.short n hn
  rw [ofWorld_within] at hshort
  cases hm : m (s.world.within (some n)) <;> rw [hm] at hshort <;> exact hshort

end ParseM.Costs

theorem Template.parse_metered {r : Registry} (hr : r.Metered) (settings : Settings) (path src : Text) :
    (ofWorld (parse r settings path src)).Metered := by
  unfold parse
  rw [ofWorld_bind]
  exact metered_closed.bind (Registry.parseSource_metered hr settings _ [] path src) fun _ =>
    metered_closed.pure _

/-- A parse without a limit is not given up, and leaves no limit. -/
theorem Template.parse_unlimited {r : Registry} (hr : r.Metered) (settings : Settings) (path src : Text)
    {w : World} (hw : w.budget = none) : Run.isStopped (parse r settings path src w) = false ∧
      (Run.state (parse r settings path src w)).budget = none := by
  obtain ⟨checks, kept, h⟩ := parse_metered hr settings path src
    { world := w, path, includers := [], stream := .ofTokens [] }
  have hsame : w.within none = w := by
    cases w
    cases hw
    rfl
  have hunstopped := h.unstopped_world
  have hunlimited := h.unlimited_world
  dsimp only at hunstopped hunlimited
  rw [hsame] at hunstopped hunlimited
  exact ⟨hunstopped, hunlimited⟩

/-- Giving up a parse is faithful. There is a number of checks that the parse of a template makes when it is
never given up, and a list of fragments that it keeps in the cache. It ends in the same way exactly if it may
make as many checks, and takes just these; otherwise it ends with the error that it was given up, and then it
has kept some of the first of the fragments and no others. -/
theorem Template.parse_givenUp (settings : Settings) (path src : Text) (w : World) :
    ∃ (checks : Nat) (kept : List (Text × Fragment)),
      (Run.state (parse .standard settings path src (w.within none))).cache =
        w.cache.map (·.keepAll kept) ∧
      Run.isStopped (parse .standard settings path src (w.within none)) = false ∧
      ∀ n,
        ((parse .standard settings path src).outcome (w.within (some n)) =
          (parse .standard settings path src).outcome (w.within none) ↔ checks ≤ n) ∧
        (checks ≤ n → parse .standard settings path src (w.within (some n)) =
          Run.map (·.within (some (n - checks))) (parse .standard settings path src (w.within none))) ∧
        (n < checks → Run.isStopped (parse .standard settings path src (w.within (some n))) = true ∧
          ∃ kept', kept' <+: kept ∧
            (Run.state (parse .standard settings path src (w.within (some n)))).cache =
              w.cache.map (·.keepAll kept')) := by
  obtain ⟨checks, kept, h⟩ := parse_metered Registry.standard_metered settings path src { world := w, path, includers := [], stream := .ofTokens [] }
  refine ⟨checks, kept, h.cache_world, h.unstopped_world, fun n => ⟨⟨?_, ?_⟩, h.enough_world, h.short_world⟩⟩
  · intro hsame
    by_contra hn
    have hstop := (h.short_world (Nat.lt_of_not_le hn)).1
    have hgoes := h.unstopped_world
    dsimp only at hstop hgoes
    unfold WorldM.outcome at hsame
    cases hm : parse .standard settings path src (w.within none) <;>
      cases hm' : parse .standard settings path src (w.within (some n)) <;> simp_all [Run.isStopped]
  · intro hn
    have henough := h.enough_world hn
    dsimp only at henough
    unfold WorldM.outcome
    rw [henough]
    cases parse .standard settings path src (w.within none) <;> rfl

/-- A text and an expression take nine checks. -/
example :
    Run.isStopped (Template.parse .standard { markdown := .ok } (utf8 "a") (utf8 "x @(b.c)")
      { budget := some 8 }) = true ∧
    Run.isStopped (Template.parse .standard { markdown := .ok } (utf8 "a") (utf8 "x @(b.c)")
      { budget := some 9 }) = false := by decide +kernel

end Atmark
