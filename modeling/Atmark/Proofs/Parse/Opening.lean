import Atmark.Proofs.Parse.Returns

/-! How far the reading of an opening tag looks. It stops at the `>` of the tag, and no look ahead goes past
it, so the tag is read in the same way whatever comes after it (`openingTag_reads`). Groups in the tag are
streams of their own; reading one does not touch the stream of the tag at all (`Idle`). -/
namespace Atmark
open ParseM

namespace Token

/-- The lists are the same up to a tag end in them. -/
inductive Sealed : List Token → List Token → Prop
  | stop {gt : Punct} (ts us : List Token) : gt.char = '>' → Sealed (.punct gt :: ts) (.punct gt :: us)
  | cons (t : Token) {ts us : List Token} : Sealed ts us → Sealed (t :: ts) (t :: us)

namespace Sealed
variable {t : Token} {ts us : List Token}

theorem append (xs : List Token) (h : Sealed ts us) : Sealed (xs ++ ts) (xs ++ us) := by
  induction xs with
  | nil => exact h
  | cons x xs ih => exact .cons x ih

theorem head? (h : Sealed ts us) : us.head? = ts.head? := by
  cases h <;> rfl

theorem not_nil : ¬Sealed [] us := nofun

/-- Past a token that does not end a tag the lists are still the same up to a tag end. -/
theorem uncons (h : Sealed (t :: ts) us) :
    ∃ us', us = t :: us' ∧ (t.isPunct '>' = true ∨ Sealed ts us') := by
  cases h with
  | stop _ _ hgt => exact ⟨_, rfl, .inl (by simpa [isPunct] using hgt)⟩
  | cons _ h => exact ⟨_, rfl, .inr h⟩

end Sealed
end Token

namespace State

/-- The state before other tokens. -/
def facing (s : State) (ts : List Token) : State := { s with stream := { s.stream with rest := ts } }

@[simp] theorem rest_facing (s : State) (ts : List Token) : (s.facing ts).stream.rest = ts := rfl

end State

theorem Stream.skip_append (s : Stream) (xs ts : List Token) :
    { s with rest := xs ++ ts }.skip xs.length = { s with past := xs.reverse ++ s.past, rest := ts } := by
  induction xs generalizing s with
  | nil => rfl
  | cons x xs ih =>
    have h := ih { s with past := x :: s.past }
    simpa [skip] using h

namespace ParseM
variable {α β : Type}

/-- The step neither takes tokens nor looks at them. -/
def Idle (m : ParseM α) : Prop :=
  ∀ s a u, Returns m s a u → u.stream = s.stream ∧ ∀ ts, Returns m (s.facing ts) a (u.facing ts)

theorem checkStop_idle : Idle checkStop := by
  rintro ⟨⟨cache, log, budget, cause⟩, _⟩ _ u h
  match budget, h with
  | none, h | some (n + 1), h =>
    cases h
    exact ⟨rfl, fun _ => rfl⟩
  | some 0, h => cases h

theorem setLast_idle (pos : Option Position) : Idle (setLast pos) := by
  intro s a u h
  rw [h.modify]
  exact ⟨rfl, fun _ => rfl⟩

theorem note_idle (message : String) (fields : List (String × Text)) : Idle (note message fields) := by
  intro s a u h
  rw [h.modify]
  exact ⟨rfl, fun _ => rfl⟩

end ParseM

namespace Tools
variable {t : Tools}

theorem region_idle (f : Frame) (cs : List Token) (markup : Bool) : Idle (t.region f cs markup) := by
  intro s ns u h
  obtain ⟨outer, s₁, hget, h₁⟩ := h.bind
  obtain ⟨rfl, rfl⟩ := hget.get
  obtain ⟨_, s₂, hset, h₂⟩ := h₁.bind
  obtain ⟨closing, s₃, hparse, h₃⟩ := h₂.bind
  obtain ⟨inner, s₄, hget, h₄⟩ := h₃.bind
  obtain ⟨rfl, rfl⟩ := hget.get
  obtain ⟨_, s₅, hset', h₅⟩ := h₄.bind
  cases closing with
  | some c => exact h₅.fail.elim
  | none =>
    obtain ⟨rfl, rfl⟩ := h₅.pure
    rw [hset'.set]
    rw [hset.set] at hparse
    refine ⟨rfl, fun ts => ?_⟩
    refine Returns.andThen (a := s₁.facing ts) rfl ?_
    refine Returns.andThen rfl ?_
    refine Returns.andThen hparse ?_
    refine Returns.andThen (a := s₄) rfl ?_
    exact Returns.andThen rfl rfl

end Tools

namespace ParseM
variable {α β : Type} {s u : State} {a : α}

/-- Tokens that are passed over may be followed by any others. -/
theorem Returns.skip_facing (xs : List Token) {ts : List Token} {k : Nat} {v : Unit} (h : Returns (skip k) s v u)
    (hrest : s.stream.rest = xs ++ ts) (hk : xs.length = k) :
    u.stream.rest = ts ∧ ∀ us, Returns (skip k) (s.facing (xs ++ us)) v (u.facing us) := by
  subst hk
  have hu := h.modify
  have hrest' : u.stream.rest = ts := by rw [hu]; simp [hrest]
  refine ⟨hrest', fun us => ?_⟩
  have hskip := s.stream.skip_append xs us
  have hskip' := s.stream.skip_append xs ts
  rw [← hrest] at hskip'
  have hs : ({ s.stream with rest := s.stream.rest } : Stream) = s.stream := rfl
  rw [hs] at hskip'
  rw [hskip'] at hu
  rw [hu]
  change EStateM.Result.ok _ _ = _
  simp only [State.facing, hskip]

/-- The step reads the next tokens, and before others it reads the same ones if a tag ends after them. The
step may depend on the tokens that are ahead. -/
def Scans (F : List Token → ParseM α) (s : State) (a : α) (u : State) : Prop :=
  ∃ used, s.stream.rest = used ++ u.stream.rest ∧ ∀ ts, Token.Sealed u.stream.rest ts →
    Returns (F (used ++ ts)) (s.facing (used ++ ts)) a (u.facing ts)

/-- No step of reading looks behind a tag end. -/
def Local (F : List Token → ParseM α) : Prop :=
  ∀ s a u, Returns (F s.stream.rest) s a u → Scans F s a u

namespace Local

theorem bind {F : List Token → ParseM α} {f : α → ParseM β} (hF : Local F)
    (hf : ∀ a, Local fun _ => f a) : Local fun ts => F ts >>= f := by
  intro s b u h
  obtain ⟨a, t, ha, hb⟩ := h.bind
  obtain ⟨xs, hxs, hread⟩ := hF s a t ha
  obtain ⟨ys, hys, hread'⟩ := hf a t b u hb
  refine ⟨xs ++ ys, by rw [hxs, hys, List.append_assoc], fun ts hts => ?_⟩
  have hsealed : Token.Sealed t.stream.rest (ys ++ ts) := hys ▸ hts.append ys
  rw [List.append_assoc]
  exact (hread _ hsealed).andThen (hread' ts hts)

theorem pure (a : α) : Local fun _ => Pure.pure a := by
  intro s b u h
  obtain ⟨rfl, rfl⟩ := h.pure
  exact ⟨[], rfl, fun _ _ => rfl⟩

theorem rest {F : List Token → ParseM α} (hF : Local F) : Local fun _ => ParseM.rest >>= F := by
  intro s a u h
  obtain ⟨ts, t, hrest, h⟩ := h.bind
  obtain ⟨rfl, rfl⟩ := hrest.rest
  obtain ⟨xs, hxs, hread⟩ := hF t a u h
  exact ⟨xs, hxs, fun ts hts => Returns.andThen (t := t.facing (xs ++ ts)) rfl (hread ts hts)⟩

theorem of_idle {m : ParseM α} (hm : Idle m) : Local fun _ => m :=
  fun s a u h => ⟨[], by rw [(hm s a u h).1]; rfl, fun _ _ => (hm s a u h).2 _⟩

theorem skip (n : Nat) : Local fun _ => ParseM.skip n := by
  intro s a u h
  rcases Nat.lt_or_ge s.stream.rest.length n with hlt | hle
  · have hrest : u.stream.rest = [] := by rw [h.modify]; simpa using Nat.le_of_lt hlt
    refine ⟨s.stream.rest, by simp [hrest], fun ts hts => ?_⟩
    exact (hrest ▸ hts).not_nil.elim
  · have hlength : (s.stream.rest.take n).length = n := by simp [Nat.min_eq_left hle]
    obtain ⟨hrest, hskip⟩ := h.skip_facing _ (List.take_append_drop n _).symm hlength
    exact ⟨_, by rw [hrest, List.take_append_drop], fun ts _ => hskip ts⟩

theorem peek : Local fun _ => ParseM.peek := by
  intro s a u h
  obtain ⟨rfl, rfl⟩ := h.peek
  refine ⟨[], rfl, fun ts hts => ?_⟩
  change EStateM.Result.ok ts.head? _ = _
  rw [hts.head?]
  rfl

theorem fail (pos : Option Position) (cause : Fault) : Local fun _ => (ParseM.fail pos cause : ParseM α) :=
  fun _ _ _ h => h.fail.elim

theorem unexpected (t : Token) (c : Context) : Local fun _ => (ParseM.unexpected t c : ParseM α) :=
  fun _ _ _ h => h.unexpected.elim

theorem guard {c : Prop} [Decidable c] {pos : Option Position} {cause : Fault} {m : Unit → ParseM α}
    (h : Local fun _ => m ()) :
    Local fun _ => if c then ParseM.fail pos cause >>= m else m () := by
  by_cases hc : c
  · simp only [hc, if_true]
    exact (fail pos cause).bind fun _ => h
  · simpa only [hc, if_false] using h

end Local

/-- Tokens that are recognised are passed over, whatever comes after them. -/
theorem skip_scans (xs : List Token) {F : List Token → ParseM α} {m : ParseM α} {ts : List Token} {n : Nat}
    (hm : Local fun _ => m) (hrest : s.stream.rest = xs ++ ts) (hn : xs.length = n)
    (h : Returns (do skip n; m) s a u)
    (hF : ∀ us, Token.Sealed ts us → F (xs ++ us) = do skip n; m) :
    ∃ ys, s.stream.rest = xs ++ ys ++ u.stream.rest ∧ ∀ us, Token.Sealed u.stream.rest us →
      Returns (F (xs ++ ys ++ us)) (s.facing (xs ++ ys ++ us)) a (u.facing us) := by
  obtain ⟨_, s₁, hskip, h₁⟩ := h.bind
  obtain ⟨hrest₁, hskip⟩ := hskip.skip_facing xs hrest hn
  obtain ⟨ys, hys, hread⟩ := hm s₁ a u h₁
  refine ⟨ys, by rw [hrest, ← hrest₁, hys, List.append_assoc], fun us hus => ?_⟩
  rw [List.append_assoc, hF _ (hrest₁ ▸ hys ▸ hus.append ys)]
  exact (hskip _).andThen (hread us hus)

theorem Scans.skip (xs : List Token) {F : List Token → ParseM α} {m : ParseM α} {ts : List Token} {n : Nat}
    (hm : Local fun _ => m) (hrest : s.stream.rest = xs ++ ts) (hn : xs.length = n)
    (h : Returns (do ParseM.skip n; m) s a u)
    (hF : ∀ us, Token.Sealed ts us → F (xs ++ us) = do ParseM.skip n; m) : Scans F s a u := by
  obtain ⟨ys, hscan⟩ := skip_scans xs hm hrest hn h hF
  exact ⟨xs ++ ys, hscan⟩

end ParseM

namespace Tools
variable {t : Tools}

/-- The expression ends before the tokens. -/
def Stops (t : Tools) (tok : Token) (ts : List Token) : Prop :=
  t.selectors (tok :: ts) = do
    checkStop
    setLast tok.pos
    return []

theorem stops_dot {p : Punct} {ts us : List Token} (hglued : (Token.punct p).glued = true)
    (hp : p.char = '.') (h : Token.Sealed ts us)
    (hts : ∀ n ts', ts = .ident n :: ts' → n.space.isEmpty = false) : t.Stops (.punct p) us := by
  unfold Stops
  conv => lhs; unfold Tools.selectors
  cases h with
  | stop => simp [hglued, hp]
  | cons x =>
    cases x with
    | ident n => simp [hglued, hp, hts n _ rfl]
    | _ => simp [hglued, hp]

theorem gluedColons_sealed {ts us : List Token} (h : Token.Sealed ts us) :
    gluedColons us = gluedColons ts := by
  induction h with
  | stop _ _ hgt => simp [gluedColons, Token.isPunct, hgt]
  | cons _ _ ih => simp only [gluedColons, ih]

theorem stops_path {p : Punct} {ts us : List Token} (hglued : (Token.punct p).glued = true)
    (hp : p.char = ':') (h : Token.Sealed ts us)
    (hts : colons (.punct p :: ts) = 2 → ∀ c n ts', ts = c :: .ident n :: ts' → n.space.isEmpty = false) :
    t.Stops (.punct p) us := by
  have hcolons : colons (.punct p :: us) = colons (.punct p :: ts) := by
    simp only [colons, gluedColons_sealed h]
  unfold Stops
  conv => lhs; unfold Tools.selectors
  by_cases h2 : colons (.punct p :: ts) = 2
  · cases h with
    | stop _ _ hgt => simp [colons, gluedColons, Token.isPunct, hp, hgt] at h2
    | cons c h =>
      cases h with
      | stop => simp [hglued, hp]
      | cons x =>
        cases x with
        | ident n => simp [hglued, hp, hts h2 c n _ rfl]
        | _ => simp [hglued, hp]
  · simp [hglued, hp, hcolons, h2]

theorem stops_postfix {p : Punct} {ts us : List Token} (hglued : (Token.punct p).glued = true)
    (hp : p.char = '?' ∨ p.char = '!') (h : Token.Sealed ts us)
    (hts : ts.head?.any followsPostfix = false) : t.Stops (.punct p) us := by
  rw [← h.head?] at hts
  unfold Stops
  conv => lhs; unfold Tools.selectors
  rcases hp with hp | hp <;> simp [hglued, hp, hts]

/-- What continues an expression does not go on past a tag end. -/
theorem selectors_local : Local t.selectors := by
  intro s ns u h
  generalize hts : s.stream.rest = ts at h
  fun_induction Tools.selectors t ts generalizing s ns u with
  | case1 =>
    obtain ⟨_, s₁, hcheck, h₁⟩ := h.bind
    obtain ⟨rfl, rfl⟩ := h₁.pure
    have hrest : u.stream.rest = [] := by rw [(checkStop_idle _ _ _ hcheck).1, hts]
    refine ⟨[], by rw [hts, hrest]; rfl, fun ts hsealed => ?_⟩
    rw [hrest] at hsealed
    exact hsealed.not_nil.elim
  | case2 tok ts ihDot ihPath ihGroup =>
    obtain ⟨_, s₁, hcheck, h₁⟩ := h.bind
    obtain ⟨hstream₁, hcheck⟩ := checkStop_idle _ _ _ hcheck
    split at h₁
    · rename_i hspaced
      obtain ⟨rfl, rfl⟩ := h₁.pure
      refine ⟨[], by rw [hstream₁]; rfl, fun us hus => ?_⟩
      obtain ⟨us, rfl, -⟩ := (hts ▸ hstream₁ ▸ hus).uncons
      rw [List.nil_append]
      unfold Tools.selectors
      refine (hcheck _).andThen ?_
      rw [if_pos hspaced]
      rfl
    rename_i hglued
    obtain ⟨_, s₂, hlast, h₂⟩ := h₁.bind
    obtain ⟨hstream₂, hlast⟩ := setLast_idle _ _ _ _ hlast
    have hrest : s₂.stream.rest = tok :: ts := by rw [hstream₂, hstream₁, hts]
    -- The same token is read before other tokens.
    have hrun {m : ParseM (List Node)} {us : List Token} {v : State}
        (heq : t.selectors (tok :: us) = do
          checkStop
          setLast tok.pos
          m)
        (hm : Returns m (s₂.facing (tok :: us)) ns v) :
        Returns (t.selectors (tok :: us)) (s.facing (tok :: us)) ns v := by
      rw [heq]
      exact (hcheck _).andThen ((hlast _).andThen hm)
    have hstop (h : Returns (pure []) s₂ ns u)
        (hstops : ∀ us, tok.isPunct '>' = true ∨ Token.Sealed ts us → t.Stops tok us) :
        Scans t.selectors s ns u := by
      obtain ⟨rfl, rfl⟩ := h.pure
      refine ⟨[], by rw [hrest, hts]; rfl, fun us hus => ?_⟩
      obtain ⟨us, rfl, hsealed⟩ := (hrest ▸ hus).uncons
      exact hrun (hstops us hsealed) rfl
    have hmore (xs : List Token) {ts' : List Token} {k : Nat} {f : List Node → List Node} (hxs : ts = xs ++ ts')
        (hk : xs.length + 1 = k) (ih : ∀ s ns u, s.stream.rest = ts' → Returns (t.selectors ts') s ns u →
          Scans t.selectors s ns u)
        (h : Returns (do skip k; return f (← t.selectors ts')) s₂ ns u)
        (heq : ∀ us, t.selectors (tok :: xs ++ us) = do
          checkStop
          setLast tok.pos
          skip k
          return f (← t.selectors us)) : Scans t.selectors s ns u := by
      obtain ⟨_, s₃, hskip, h₃⟩ := h.bind
      obtain ⟨hrest₃, hskip⟩ := hskip.skip_facing (tok :: xs) (by rw [hrest, hxs]; rfl) hk
      obtain ⟨ms, s₄, hms, h₄⟩ := h₃.bind
      obtain ⟨rfl, rfl⟩ := h₄.pure
      obtain ⟨ys, hys, hread⟩ := ih s₃ ms u hrest₃ hms
      refine ⟨tok :: xs ++ ys, ?_, fun us hus => ?_⟩
      · rw [hts, hxs, ← hrest₃, hys, List.append_assoc]
        rfl
      · rw [List.append_assoc]
        refine hrun (heq _) ?_
        exact (hskip _).andThen ((hread us hus).andThen rfl)
    cases tok with
    | punct p =>
      dsimp only at h₂
      -- Only `>` can hide what comes after it, and it does not continue an expression.
      have hsealed {c : Char} {us : List Token} (hp : p.char = c) (hc : c ≠ '>')
          (hus : (Token.punct p).isPunct '>' = true ∨ Token.Sealed ts us) : Token.Sealed ts us := by
        rcases hus with hgt | hus
        · exact (hc (hp.symm.trans (by simpa [Token.isPunct] using hgt))).elim
        · exact hus
      split at h₂
      · rename_i hp
        have hdot (hts : ∀ n ts', ts = .ident n :: ts' → n.space.isEmpty = false)
            (h : Returns (pure []) s₂ ns u) : Scans t.selectors s ns u :=
          hstop h fun us hus => stops_dot (by simpa using hglued) hp (hsealed hp (by decide) hus) hts
        split at h₂
        · split at h₂
          · rename_i hn
            refine hmore [.ident _] rfl rfl ihDot h₂ fun us => ?_
            conv => lhs; unfold Tools.selectors
            simp [hglued, hp, hn]
          · rename_i hn
            exact hdot (by simpa using hn) h₂
        · rename_i hts
          exact hdot (fun n ts' h => (hts n ts' h).elim) h₂
      split at h₂
      · rename_i hp
        have hpath (hts : colons (.punct p :: ts) = 2 →
              ∀ c n ts', ts = c :: .ident n :: ts' → n.space.isEmpty = false)
            (h : Returns (pure []) s₂ ns u) : Scans t.selectors s ns u :=
          hstop h fun us hus => stops_path (by simpa using hglued) hp (hsealed hp (by decide) hus) hts
        split at h₂
        · rename_i h2
          exact hpath (fun h => by simp [h] at h2) h₂
        rename_i h2
        split at h₂
        · rename_i c n ts'
          split at h₂
          · rename_i hn
            refine hmore [c, .ident n] rfl rfl ihPath h₂ fun us => ?_
            have hcolons : colons (.punct p :: c :: .ident n :: us) = 2 := by
              have hsame : colons (.punct p :: c :: .ident n :: us) =
                  colons (.punct p :: c :: .ident n :: ts') := by
                simp [colons, gluedColons, Token.isPunct]
              rw [hsame]
              simpa using h2
            conv => lhs; unfold Tools.selectors
            simp [hglued, hp, hn, hcolons]
          · rename_i hn
            refine hpath (fun _ c n ts' h => ?_) h₂
            cases h
            simpa using hn
        · rename_i hts
          exact hpath (fun _ c n ts' h => (hts c n ts' h).elim) h₂
      split at h₂
      · rename_i hp
        split at h₂
        · exact h₂.fail.elim
        · rename_i hts
          refine hstop h₂ fun us hus => ?_
          have hp : p.char = '?' ∨ p.char = '!' := by simpa using hp
          refine stops_postfix (by simpa using hglued) hp ?_ (by simpa using hts)
          rcases hp with hp | hp
          · exact hsealed hp (by decide) hus
          · exact hsealed hp (by decide) hus
      · rename_i hdot hcolon hpostfix
        refine hstop h₂ fun us _ => ?_
        unfold Stops
        conv => lhs; unfold Tools.selectors
        simp [hglued, hdot, hcolon, hpostfix]
    | group f cs =>
      dsimp only at h₂
      split at h₂
      · rename_i hf
        refine hstop h₂ fun us _ => ?_
        unfold Stops
        conv => lhs; unfold Tools.selectors
        simp [hglued, hf]
      · rename_i hf
        obtain ⟨_, s₃, hskip, h₃⟩ := h₂.bind
        obtain ⟨hrest₃, hskip⟩ := hskip.skip_facing [.group f cs] hrest rfl
        obtain ⟨children, s₄, hchildren, h₄⟩ := h₃.bind
        obtain ⟨hstream₄, hchildren⟩ := region_idle _ _ _ _ _ _ hchildren
        obtain ⟨ms, s₅, hms, h₅⟩ := h₄.bind
        obtain ⟨rfl, rfl⟩ := h₅.pure
        have hrest₄ : s₄.stream.rest = ts := by rw [hstream₄, hrest₃]
        obtain ⟨ys, hys, hread⟩ := ihGroup s₄ ms u hrest₄ hms
        refine ⟨.group f cs :: ys, by rw [hts, ← hrest₄, hys]; rfl, fun us hus => ?_⟩
        refine hrun (m := do
          skip 1
          return .group f (← t.region f cs false) :: (← t.selectors (ys ++ us))) ?_ ?_
        · conv => lhs; unfold Tools.selectors
          simp [hglued, hf]
        · exact (hskip _).andThen ((hchildren _).andThen ((hread us hus).andThen rfl))
    | ident n =>
      refine hstop h₂ fun us _ => ?_
      unfold Stops
      conv => lhs; unfold Tools.selectors
      simp [hglued]
    | literal l =>
      refine hstop h₂ fun us _ => ?_
      unfold Stops
      conv => lhs; unfold Tools.selectors
      simp [hglued]

theorem expressionFrom_local (id : Ident) : Local fun _ => t.expressionFrom id :=
  .rest (.bind selectors_local fun _ => .pure _)

theorem expression_local : Local fun _ => t.expression := by
  refine .rest fun s ns u h => ?_
  have halone {p : Punct} {ts : List Token} (hrest : s.stream.rest = .punct p :: ts)
      (h : Returns (do skip 1; return [.punct p]) s ns u) {F : List Token → ParseM (List Node)}
      (hF : ∀ us, Token.Sealed ts us → F (.punct p :: us) = do skip 1; return [.punct p]) :
      Scans F s ns u := by
    refine Scans.skip [.punct p] ?_ hrest rfl h hF
    exact .pure _
  cases hrest : s.stream.rest with
  | nil =>
    rw [hrest] at h
    obtain ⟨_, _, hget, h₁⟩ := h.bind
    exact h₁.fail.elim
  | cons tok ts =>
    rw [hrest] at h
    cases tok with
    | ident id =>
      exact Scans.skip [.ident id] (expressionFrom_local id) hrest rfl h fun _ _ => rfl
    | punct p =>
      dsimp only at h
      split at h
      · rename_i hp
        split at h
        · rename_i id ts'
          split at h
          · rename_i hid
            refine Scans.skip [.punct p, .ident id] (.bind (expressionFrom_local id) fun _ => .pure _)
              hrest rfl h fun us _ => ?_
            simp [hp, hid]
          · rename_i hid
            refine halone hrest h fun us hus => ?_
            obtain ⟨us, rfl, -⟩ := hus.uncons
            simp [hp, hid]
        · rename_i hts
          refine halone hrest h fun us hus => ?_
          cases hus with
          | stop => simp [hp]
          | cons x =>
            cases x with
            | ident id => exact (hts id _ rfl).elim
            | _ => simp [hp]
      · exact h.unexpected.elim
    | literal l => exact h.unexpected.elim
    | group f cs => exact h.unexpected.elim

/-- The value of an attribute after the marker is read after the marker is passed over. -/
theorem valueExpression_eq (marker : Punct) (attr : Text) :
    ∃ m, t.valueExpression marker attr = (do skip 1; m) ∧ Local fun _ => m := by
  refine ⟨_, rfl, .bind .peek fun next => ?_⟩
  cases next with
  | none => exact .fail _ _
  | some next =>
    refine .guard ?_
    cases next with
    | ident id => exact expression_local
    | literal l => exact .bind (.skip 1) fun _ => .pure _
    | group f cs =>
      dsimp only
      split
      · refine .bind (.skip 1) fun _ => .bind (.of_idle (region_idle f cs false)) fun expr => ?_
        exact .guard (.pure _)
      · exact .unexpected _ _
    | punct p =>
      dsimp only
      split
      · exact expression_local
      · exact .unexpected _ _

theorem takeWhile_sealed {ts us : List Token} (h : Token.Sealed ts us) :
    us.takeWhile Token.continuesRun = ts.takeWhile Token.continuesRun := by
  induction h with
  | stop _ _ hgt => simp [Token.continuesRun, hgt]
  | cons _ _ ih => simp only [List.takeWhile_cons, ih]

theorem untilApostrophe_append {ts us : List Token} {space : Text}
    (h : untilApostrophe ts = some (us, space)) :
    ∃ q rest, ts = us ++ q :: rest ∧ ∀ vs, untilApostrophe (us ++ q :: vs) = some (us, space) := by
  induction ts generalizing us with
  | nil => cases h
  | cons t ts ih =>
    unfold untilApostrophe at h
    split at h
    · rename_i ht
      cases h
      exact ⟨t, ts, rfl, fun vs => by simp [untilApostrophe, ht]⟩
    · rename_i ht
      obtain ⟨⟨us', space'⟩, hus, heq⟩ := Option.map_eq_some_iff.mp h
      cases heq
      obtain ⟨q, rest, rfl, hq⟩ := ih hus
      exact ⟨q, rest, rfl, fun vs => by simp [untilApostrophe, ht, hq]⟩

/-- Of a value a token at least is read, and none behind a tag end that follows. -/
theorem attrValue_scans {tag attr : Text} {tok : Token} {ts : List Token} {s u : State} {v : AttrValue}
    (hrest : s.stream.rest = tok :: ts) (h : Returns (t.attrValue tag attr tok ts) s v u) :
    ∃ used, ts = used ++ u.stream.rest ∧ ∀ us, Token.Sealed u.stream.rest us →
      Returns (t.attrValue tag attr tok (used ++ us)) (s.facing (tok :: used ++ us)) v (u.facing us) := by
  have hscan (xs : List Token) {ts' : List Token} {m : ParseM AttrValue} {n : Nat} (hm : Local fun _ => m)
      (hts : ts = xs ++ ts') (hn : xs.length + 1 = n) (h : Returns (do skip n; m) s v u)
      (heq : ∀ us, Token.Sealed ts' us → t.attrValue tag attr tok (xs ++ us) = do skip n; m) :
      ∃ used, ts = used ++ u.stream.rest ∧ ∀ us, Token.Sealed u.stream.rest us →
        Returns (t.attrValue tag attr tok (used ++ us)) (s.facing (tok :: used ++ us)) v (u.facing us) := by
    obtain ⟨ys, hys, hread⟩ := skip_scans (tok :: xs) (F := fun ts => t.attrValue tag attr tok ts.tail) hm
      (by rw [hrest, hts]; rfl) hn h heq
    rw [hrest] at hys
    exact ⟨xs ++ ys, (List.cons.inj hys).2, hread⟩
  have hrun (heq : ∀ us, t.attrValue tag attr tok us = do return ⟨tok.pos, ← unquotedValue tok us, []⟩) :
      ∃ used, ts = used ++ u.stream.rest ∧ ∀ us, Token.Sealed u.stream.rest us →
        Returns (t.attrValue tag attr tok (used ++ us)) (s.facing (tok :: used ++ us)) v (u.facing us) := by
    have hts := (List.takeWhile_append_dropWhile (p := Token.continuesRun) (l := ts)).symm
    have hvalue (us : List Token) : t.attrValue tag attr tok us = do
        skip (us.takeWhile Token.continuesRun).length.succ
        return ⟨tok.pos, { run := tok :: us.takeWhile Token.continuesRun }, []⟩ := by
      rw [heq]
      simp [unquotedValue]
    rw [hvalue] at h
    refine hscan _ (.pure _) hts rfl h fun us hus => ?_
    have hsame := takeWhile_sealed (hus.append (ts.takeWhile Token.continuesRun))
    rw [← hts] at hsame
    rw [hvalue, hsame]
  cases tok with
  | literal l =>
    refine hscan [] ?_ rfl rfl h fun _ _ => rfl
    dsimp only
    split <;> exact .pure _
  | ident i => exact hrun fun _ => rfl
  | group f cs => exact h.unexpected.elim
  | punct p =>
    unfold attrValue at h
    dsimp only at h
    split at h
    · rename_i hp
      split at h
      · exact h.fail.elim
      · rename_i xs space hxs
        obtain ⟨q, rest, hts, hq⟩ := untilApostrophe_append hxs
        have hts : ts = xs ++ [q] ++ rest := by simp [hts]
        refine hscan (xs ++ [q]) (.pure _) hts (by simp) h fun us _ => ?_
        rw [List.append_assoc]
        simp [attrValue, hp, hq us]
    split at h
    · rename_i hquote hp
      refine hrun fun us => ?_
      unfold attrValue
      simp [hquote, hp]
    split at h
    · rename_i hquote hdash hp
      obtain ⟨m, hm, hlocal⟩ := valueExpression_eq (t := t) p attr
      rw [hm, bind_assoc] at h
      refine hscan [] (.bind hlocal fun expr => ?_) rfl rfl h fun us _ => ?_
      · exact .bind (.of_idle (note_idle _ _)) fun _ => .pure _
      · unfold attrValue
        simp [hp, hm]
    split at h
    · exact h.fail.elim
    · exact h.unexpected.elim

/-- One step of reading a tag at its next token, given how the reading goes on. -/
def attributeStep (t : Tools) (tag : Text) (go : TagReading → TagFocus → ParseM (TagReading × TagEnd))
    (r : TagReading) (focus : TagFocus) (tok : Token) (ts : List Token) : ParseM (TagReading × TagEnd) :=
  match focus with
  | .value k equals => do
    let v ← t.attrValue tag k.text tok ts
    go (r.withValue k equals v) .name
  | .name =>
    match tok with
    | .punct p =>
      if p.char = '>' then do
        skip 1
        return (r.withoutValue, ⟨none, p.space, p.pos⟩)
      else if p.char = '/' then
        if ts.head?.any fun gt => gt.isPunct '>' && gt.glued then do
          skip 2
          return (r.withoutValue, ⟨some p, p.space, p.pos⟩)
        else fail p.pos (.loneSlash tag)
      else if p.char = '=' then
        match r.key with
        | none => fail p.pos (.earlyEquals tag)
        | some k => do
          skip 1
          go r (.value k p.pos)
      else if p.char = '-' || p.char = '_' || p.char = ':' then do
        skip 1
        go (r.addKey tok) .name
      else unexpected tok (.inTag tag)
    | .ident _ => do
      skip 1
      go (r.addKey tok) .name
    | .literal l =>
      if l.isString then do
        skip 1
        go (r.startKey tok) .name
      else unexpected tok (.inTag tag)
    | .group .. => unexpected tok (.inTag tag)

theorem attributesWithin_succ (t : Tools) (lt : Option Position) (tag : Text) (n : Nat) (r : TagReading)
    (focus : TagFocus) : t.attributesWithin lt tag (n + 1) r focus = (do
      checkStop
      match ← rest with
      | [] => fail lt (.openTag tag)
      | tok :: ts =>
        setLast tok.pos
        t.attributeStep tag (t.attributesWithin lt tag n) r focus tok ts) := rfl

/-- The rest of a tag that is not closed in itself ends with `>`, and it is read in the same way whatever
comes after it, in as many steps as it has tokens. -/
theorem attributesWithin_sealed {lt : Option Position} {tag : Text} {n : Nat} {r r' : TagReading}
    {focus : TagFocus} {e : TagEnd} {s u : State}
    (h : Returns (t.attributesWithin lt tag n r focus) s (r', e) u) (he : e.slash = none) :
    ∃ used, s.stream.rest = used ++ u.stream.rest ∧
      (∀ us, Token.Sealed s.stream.rest (used ++ us)) ∧ ∀ us k, used.length ≤ k →
        Returns (t.attributesWithin lt tag k r focus) (s.facing (used ++ us)) (r', e) (u.facing us) := by
  -- On the number of steps; a step takes the first tokens of the tag, and the others are read after it.
  induction n generalizing s r focus with
  | zero => exact h.throw.elim
  | succ n ih =>
    rw [attributesWithin_succ] at h
    obtain ⟨_, s₁, hcheck, h₁⟩ := h.bind
    obtain ⟨hstream₁, hcheck⟩ := checkStop_idle _ _ _ hcheck
    obtain ⟨ts, s₂, hrest, h₂⟩ := h₁.bind
    obtain ⟨rfl, rfl⟩ := hrest.rest
    rw [hstream₁] at h₂
    cases hr : s.stream.rest with
    | nil =>
      rw [hr] at h₂
      exact h₂.fail.elim
    | cons tok ts =>
      rw [hr] at h₂
      obtain ⟨_, s₃, hlast, h₃⟩ := h₂.bind
      obtain ⟨hstream₃, hlast⟩ := setLast_idle _ _ _ _ hlast
      have hrest₃ : s₃.stream.rest = tok :: ts := by rw [hstream₃, hstream₁, hr]
      have hrun {us : List Token} {k : Nat} {v : State} (h : Returns
          (t.attributeStep tag (t.attributesWithin lt tag k) r focus tok us) (s₃.facing (tok :: us)) (r', e) v) :
          Returns (t.attributesWithin lt tag (k + 1) r focus) (s.facing (tok :: us)) (r', e) v := by
        rw [attributesWithin_succ]
        exact (hcheck _).andThen (Returns.andThen rfl ((hlast _).andThen h))
      have hgo {r₂ : TagReading} {focus₂ : TagFocus}
          (h : Returns (do skip 1; t.attributesWithin lt tag n r₂ focus₂) s₃ (r', e) u)
          (heq : ∀ k us, t.attributeStep tag (t.attributesWithin lt tag k) r focus tok us = do
            skip 1
            t.attributesWithin lt tag k r₂ focus₂) :
          ∃ used, tok :: ts = used ++ u.stream.rest ∧ (∀ us, Token.Sealed (tok :: ts) (used ++ us)) ∧
            ∀ us k, used.length ≤ k →
              Returns (t.attributesWithin lt tag k r focus) (s.facing (used ++ us)) (r', e) (u.facing us) := by
        obtain ⟨_, s₄, hskip, h₄⟩ := h.bind
        obtain ⟨hrest₄, hskip⟩ := hskip.skip_facing [tok] hrest₃ rfl
        obtain ⟨used, hused, hsealed, hread⟩ := ih h₄
        rw [hrest₄] at hused hsealed
        refine ⟨tok :: used, by rw [hused]; rfl, fun us => .cons tok (hsealed us), fun us k hk => ?_⟩
        cases k with
        | zero => cases hk
        | succ k =>
          refine hrun ?_
          rw [heq]
          exact (hskip _).andThen (hread us k (Nat.le_of_succ_le_succ hk))
      cases focus with
      | value key equals =>
        obtain ⟨v, s₄, hv, h₄⟩ := h₃.bind
        obtain ⟨xs, hxs, hvalue⟩ := attrValue_scans hrest₃ hv
        obtain ⟨used, hused, hsealed, hread⟩ := ih h₄
        refine ⟨tok :: xs ++ used, by rw [hxs, hused]; simp, fun us => ?_, fun us k hk => ?_⟩
        · rw [hxs]
          simpa using (hsealed us).append (tok :: xs)
        · cases k with
          | zero => simp at hk
          | succ k =>
            have hk : used.length ≤ k := by simp at hk; omega
            have hstep := hvalue _ (hsealed us)
            rw [List.append_assoc]
            refine hrun ?_
            exact hstep.andThen (hread us k hk)
      | name =>
        cases tok with
        | group f cs => exact h₃.unexpected.elim
        | ident i => exact hgo h₃ fun _ _ => rfl
        | literal l =>
          simp only [attributeStep] at h₃
          split at h₃
          · rename_i hl
            exact hgo h₃ fun _ _ => by simp [attributeStep, hl]
          · exact h₃.unexpected.elim
        | punct p =>
          simp only [attributeStep] at h₃
          split at h₃
          · rename_i hgt
            obtain ⟨_, s₄, hskip, h₄⟩ := h₃.bind
            obtain ⟨hrest₄, hskip⟩ := hskip.skip_facing [.punct p] hrest₃ rfl
            obtain ⟨heq, rfl⟩ := h₄.pure
            refine ⟨[.punct p], by rw [hrest₄]; rfl, fun us => .stop _ _ hgt, fun us k hk => ?_⟩
            cases k with
            | zero => simp at hk
            | succ k =>
              refine hrun ?_
              simp only [attributeStep, hgt, if_true]
              exact (hskip us).andThen (by rw [heq]; rfl)
          split at h₃
          · split at h₃
            · obtain ⟨_, s₄, hskip, h₄⟩ := h₃.bind
              obtain ⟨heq, rfl⟩ := h₄.pure
              cases heq
              cases he
            · exact h₃.fail.elim
          split at h₃
          · rename_i hgt hslash hequals
            split at h₃
            · exact h₃.fail.elim
            · rename_i key hkey
              refine hgo h₃ fun _ _ => ?_
              simp [attributeStep, hequals, hkey]
          split at h₃
          · rename_i hgt hslash hequals hname
            refine hgo h₃ fun _ _ => ?_
            simp only [attributeStep, hgt, hslash, hequals, hname, if_true, if_false]
          · exact h₃.unexpected.elim

/-- A tag that is not closed in itself is read in the same way whatever comes after it. -/
theorem attributes_sealed {lt : Option Position} {tag : Text} {r : TagReading} {e : TagEnd} {s u : State}
    (h : Returns (t.attributes lt tag) s (r, e) u) (he : e.slash = none) :
    ∃ used, s.stream.rest = used ++ u.stream.rest ∧ (∀ us, Token.Sealed s.stream.rest (used ++ us)) ∧
      ∀ us, Returns (t.attributes lt tag) (s.facing (used ++ us)) (r, e) (u.facing us) := by
  obtain ⟨ts, s₁, hrest, h₁⟩ := h.bind
  obtain ⟨rfl, rfl⟩ := hrest.rest
  obtain ⟨used, hused, hsealed, hread⟩ := attributesWithin_sealed h₁ he
  refine ⟨used, hused, hsealed, fun us => ?_⟩
  have hlength : used.length ≤ (used ++ us).length + 1 := by simp; omega
  exact Returns.andThen (t := s₁.facing (used ++ us)) rfl (hread us _ hlength)

end Tools

/-! ## Opening tags -/

theorem gluedTagName_isPrefix (ts : List Token) : gluedTagName ts <+: ts := by
  induction ts with
  | nil => exact List.prefix_rfl
  | cons t ts ih =>
    unfold gluedTagName
    split
    · exact List.prefix_cons_inj t |>.mpr ih
    · exact List.nil_prefix

theorem tagNameTokens_isPrefix (ts : List Token) : tagNameTokens ts <+: ts := by
  cases ts with
  | nil => exact List.prefix_rfl
  | cons t ts =>
    simp only [tagNameTokens]
    split
    · exact List.prefix_cons_inj t |>.mpr (gluedTagName_isPrefix ts)
    · exact List.nil_prefix

namespace Token.Sealed
variable {ts us : List Token}

theorem gluedTagName_eq (h : Sealed ts us) : gluedTagName us = gluedTagName ts := by
  induction h with
  | stop _ _ hgt => simp [gluedTagName, continuesTagName, startsTagName, hgt]
  | cons _ _ ih => simp only [gluedTagName, ih]

/-- A tag end ends the name of a tag as well. -/
theorem tagNameTokens_eq (h : Sealed ts us) : tagNameTokens us = tagNameTokens ts := by
  cases h with
  | stop _ _ hgt => simp [tagNameTokens, continuesTagName, startsTagName, hgt]
  | cons _ h => simp only [tagNameTokens, h.gluedTagName_eq]

end Token.Sealed

namespace Tools
variable {t : Tools}

/-- Reads an opening tag: the tokens of its name, its attributes and its end. -/
def openingTag (t : Tools) (lt : Punct) : ParseM (List Token × TagReading × TagEnd) := do
  skip 1
  let tokens := tagNameTokens (← rest)
  skip tokens.length
  let (reading, stop) ← t.attributes lt.pos (tagName tokens)
  return (tokens, reading, stop)

/-- An opening tag that is not closed in itself is read in the same way whatever comes after it. -/
theorem openingTag_reads {lt : Punct} {tokens : List Token} {r : TagReading} {e : TagEnd} {s u : State}
    {ts : List Token} (hrest : s.stream.rest = .punct lt :: ts)
    (h : Returns (t.openingTag lt) s (tokens, r, e) u) (he : e.slash = none) :
    ∃ used, ts = used ++ u.stream.rest ∧ ∀ us,
      Returns (t.openingTag lt) (s.facing (.punct lt :: used ++ us)) (tokens, r, e) (u.facing us) := by
  obtain ⟨_, s₁, hskip, h₁⟩ := h.bind
  obtain ⟨hrest₁, hskip⟩ := hskip.skip_facing [.punct lt] hrest rfl
  obtain ⟨name, s₂, hname, h₂⟩ := h₁.bind
  obtain ⟨rfl, rfl⟩ := hname.rest
  obtain ⟨_, s₃, hskip₂, h₃⟩ := h₂.bind
  obtain ⟨after, hafter⟩ := tagNameTokens_isPrefix ts
  rw [hrest₁] at hskip₂ h₃
  obtain ⟨hrest₃, hskip₂⟩ := hskip₂.skip_facing _ (hrest₁.trans hafter.symm) rfl
  obtain ⟨⟨r', e'⟩, s₄, hattributes, h₄⟩ := h₃.bind
  obtain ⟨heq, rfl⟩ := h₄.pure
  cases heq
  obtain ⟨used, hused, hsealed, hread⟩ := attributes_sealed hattributes he
  refine ⟨tagNameTokens ts ++ used, ?_, fun us => ?_⟩
  · rw [List.append_assoc, ← hused, hrest₃, hafter]
  · have hname : tagNameTokens (tagNameTokens ts ++ used ++ us) = tagNameTokens ts := by
      have h := (hsealed us).append (tagNameTokens ts)
      rw [hrest₃, hafter, ← List.append_assoc] at h
      exact h.tagNameTokens_eq
    refine (hskip (tagNameTokens ts ++ used ++ us)).andThen ?_
    refine Returns.andThen (t := s₂.facing (tagNameTokens ts ++ used ++ us)) rfl ?_
    simp only [State.rest_facing, hname]
    rw [List.append_assoc]
    exact (hskip₂ _).andThen (Returns.andThen (a := (r, e)) (hread us) rfl)

end Tools

end Atmark
