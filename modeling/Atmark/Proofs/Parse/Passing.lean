import Atmark.Proofs.Parse.Returns

/-! Steps that pass over tokens. `State.Passes` says which tokens a step has passed over and that it has left
everything else as it was; `ParseM.Takes` says that a step returns and passes over them, whatever comes behind.
The first is what is known after a step that returned, the second is how to show that one returns. -/
namespace Atmark
open ParseM

theorem Token.eq_punct {t : Token} {c : Char} (h : t.isPunct c = true) : t = .punct ⟨t.pos, t.space, c⟩ := by
  cases t with
  | punct p =>
    obtain rfl : p.char = c := by simpa [isPunct] using h
    rfl
  | _ => cases h

theorem Stream.skip_skip (s : Stream) (m n : Nat) : (s.skip m).skip n = s.skip (m + n) := by
  induction m generalizing s with
  | zero => rw [Nat.zero_add]; rfl
  | succ m ih =>
    rw [Nat.add_right_comm]
    cases hs : s.rest with
    | nil => cases n <;> simp [skip, hs]
    | cons t ts => simp only [skip, hs, ih]

/-- From `s` to `u` the next tokens `ts` are passed over, and nothing else changes but where a stop would be
reported and how many checks are left. -/
structure State.Passes (s : State) (ts : List Token) (u : State) : Prop where
  rest : s.stream.rest = ts ++ u.stream.rest
  frame : ∃ last budget, u = { s with
    stream := s.stream.skip ts.length, last, world := { s.world with budget } }
  unlimited : s.world.budget = none → u.world.budget = none

namespace State.Passes
variable {s s₁ s₂ : State} {ts us : List Token}

theorem refl (s : State) : s.Passes [] s := ⟨rfl, ⟨_, _, rfl⟩, id⟩

theorem trans (h : s.Passes ts s₁) (h' : s₁.Passes us s₂) : s.Passes (ts ++ us) s₂ where
  rest := by rw [h.rest, h'.rest, List.append_assoc]
  frame := by
    obtain ⟨last, budget, hs₁⟩ := h.frame
    obtain ⟨last', budget', hs₂⟩ := h'.frame
    refine ⟨last', budget', ?_⟩
    rw [hs₂, hs₁, List.length_append, ← Stream.skip_skip]
  unlimited hb := h'.unlimited (h.unlimited hb)

/-- Without a bound on the checks nothing is left of them. -/
theorem frame_unlimited (h : s.Passes ts s₁) (hb : s.world.budget = none) :
    ∃ last, s₁ = { s with stream := s₁.stream, last } := by
  obtain ⟨last, budget, hs₁⟩ := h.frame
  have hbudget := h.unlimited hb
  rw [hs₁] at hbudget
  obtain rfl : budget = none := hbudget
  refine ⟨last, ?_⟩
  rw [hs₁, ← hb]

/-- What is left is what the tokens were before. -/
theorem rest_eq {after : List Token} (h : s.Passes ts s₁) (hs : s.stream.rest = ts ++ after) :
    s₁.stream.rest = after := List.append_cancel_left (h.rest.symm.trans hs)

theorem stream_eq (h : s.Passes ts s₁) : s₁.stream = s.stream.skip ts.length := by
  obtain ⟨_, _, rfl⟩ := h.frame
  rfl

end State.Passes

namespace ParseM
variable {α β : Type} {s u : State}

theorem skip_passes (ts : List Token) {us : List Token} (hs : s.stream.rest = ts ++ us) :
    ∃ u, Returns (skip ts.length) s () u ∧ s.Passes ts u :=
  ⟨_, rfl, by simp [hs], ⟨_, _, rfl⟩, id⟩

theorem setLast_passes (s : State) (pos : Option Position) :
    ∃ u, Returns (setLast pos) s () u ∧ s.Passes [] u := ⟨_, rfl, rfl, ⟨_, _, rfl⟩, id⟩

theorem checkStop_passes (hs : s.world.budget = none) : ∃ u, Returns checkStop s () u ∧ s.Passes [] u := by
  obtain ⟨⟨_, _, _, _⟩, _⟩ := s
  cases hs
  exact ⟨_, rfl, rfl, ⟨_, _, rfl⟩, id⟩

namespace Returns
variable {v : Unit}

/-- Whatever follows a check that fails was reached because it did not. -/
theorem guard {c : Prop} [Decidable c] {pos : Option Position} {cause : Fault} {m : Unit → ParseM α} {a : α}
    (h : Returns (if c then ParseM.fail pos cause >>= m else m ()) s a u) : ¬c ∧ Returns (m ()) s a u := by
  split at h
  · obtain ⟨_, _, hfail, -⟩ := h.bind
    exact hfail.fail.elim
  · rename_i hc
    exact ⟨hc, h⟩

theorem skip_passes {n : Nat} (h : Returns (ParseM.skip n) s v u) (ts : List Token) {us : List Token}
    (hs : s.stream.rest = ts ++ us) (hn : ts.length = n) : s.Passes ts u := by
  subst hn
  obtain ⟨u', h', hu'⟩ := ParseM.skip_passes ts hs
  cases h.symm.trans h'
  exact hu'

theorem setLast_passes {pos : Option Position} (h : Returns (ParseM.setLast pos) s v u) : s.Passes [] u := by
  rw [h.modify]
  exact ⟨rfl, ⟨_, _, rfl⟩, id⟩

theorem checkStop_passes (h : Returns ParseM.checkStop s v u) : s.Passes [] u := by
  refine ⟨?_, ?_, fun hb => ?_⟩
  · obtain ⟨budget, rfl⟩ := h.checkStop
    rfl
  · obtain ⟨budget, rfl⟩ := h.checkStop
    exact ⟨_, budget, rfl⟩
  · obtain ⟨u', h', hu'⟩ := ParseM.checkStop_passes hb
    cases h.symm.trans h'
    exact hu'.unlimited hb

end Returns

/-- The step returns `a` and passes over the tokens `ts`. -/
def Takes (m : ParseM α) (s : State) (a : α) (ts : List Token) : Prop := ∃ u, Returns m s a u ∧ s.Passes ts u

namespace Takes
variable {a : α} {b : β} {ts us : List Token}

theorem bind {m : ParseM α} {f : α → ParseM β} (h : Takes m s a ts)
    (hf : ∀ u, s.Passes ts u → Takes (f a) u b us) : Takes (m >>= f) s b (ts ++ us) := by
  obtain ⟨t, hm, ht⟩ := h
  obtain ⟨u, hu, hpass⟩ := hf t ht
  exact ⟨u, hm.andThen hu, ht.trans hpass⟩

theorem pure (a : α) : Takes (Pure.pure a) s a [] := ⟨s, rfl, .refl s⟩

/-- The result is changed when the tokens have been taken. -/
theorem map {m : ParseM α} (f : α → β) (h : Takes m s a ts) : Takes (do return f (← m)) s (f a) ts := by
  have hall := h.bind (f := fun a => Pure.pure (f a)) fun _ _ => .pure _
  rwa [List.append_nil] at hall

/-- A step that takes nothing comes first. -/
theorem next {m : ParseM α} {f : α → ParseM β} (h : Takes m s a [])
    (hf : ∀ u, s.Passes [] u → Takes (f a) u b us) : Takes (m >>= f) s b us := h.bind hf

theorem skip {n : Nat} (ts : List Token) {us : List Token} (hs : s.stream.rest = ts ++ us)
    (hn : ts.length = n) : Takes (ParseM.skip n) s () ts := by
  subst hn
  exact skip_passes ts hs

theorem setLast (pos : Option Position) : Takes (ParseM.setLast pos) s () [] := setLast_passes s pos

/-- A check that may be made. -/
theorem checkStop (hs : s.world.budget = none) : Takes ParseM.checkStop s () [] := checkStop_passes hs

/-- A look at the tokens ahead. -/
theorem look {f : List Token → ParseM β} (h : Takes (f s.stream.rest) s b ts) :
    Takes (ParseM.rest >>= f) s b ts := h

theorem peek {f : Option Token → ParseM β} (h : Takes (f s.stream.rest.head?) s b ts) :
    Takes (ParseM.peek >>= f) s b ts := h

end Takes
end ParseM
end Atmark
