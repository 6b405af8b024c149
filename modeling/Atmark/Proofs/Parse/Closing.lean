import Atmark.Proofs.Parse.Include
import Atmark.Proofs.Parse.Markup
import Atmark.Proofs.Parse.Opening

/-! Closing tags. One is read in the same way wherever it stands (`ClosingTag.Written`), and one that the loop
gives back stands right before the tokens that are left (`Contract.loop_ends`), so what was read before it are
the children of its element. -/
namespace Atmark
open Node ParseM

/-! ## Closing tags -/

/-- The state after the next tokens, before the others. -/
def State.movedOver (s : State) (xs ts : List Token) : State :=
  { s with stream := { s.stream with past := xs.reverse ++ s.stream.past, rest := ts } }

theorem ParseM.returns_skip {s : State} (xs : List Token) {ts : List Token} {k : Nat}
    (hrest : s.stream.rest = xs ++ ts) (hk : xs.length = k) : Returns (skip k) s () (s.movedOver xs ts) := by
  subst hk
  have hskip := s.stream.skip_append xs ts
  rw [← hrest] at hskip
  change EStateM.Result.ok _ _ = _
  rw [State.movedOver, ← hskip]

theorem State.movedOver_movedOver (s : State) (xs ys ts us : List Token) :
    (s.movedOver xs ts).movedOver ys us = s.movedOver (xs ++ ys) us := by
  simp [movedOver]

theorem Token.continuesTagName_of_starts {t : Token} (h : t.startsTagName = true) :
    t.continuesTagName = true := by
  cases t with
  | literal l => cases h
  | _ => exact h

theorem tagNameTokens_append {ts us : List Token} {gt : Token} (hgt : gt.isPunct '>' = true)
    (h : tagNameTokens (ts ++ gt :: us) = ts) (vs : List Token) : tagNameTokens (ts ++ gt :: vs) = ts := by
  cases gt with
  | punct p =>
    have hp : p.char = '>' := by simpa [Token.isPunct] using hgt
    exact ((Token.Sealed.stop us vs hp).append ts).tagNameTokens_eq.trans h
  | _ => cases hgt

namespace ClosingTag

/-- After `<`, the tokens are the closing tag, whatever comes after it. -/
structure Written (c : ClosingTag) (lt : Punct) (ts : List Token) : Prop where
  start : lt.char = '<'
  pos : c.pos = lt.pos
  name : c.name = tagName c.tokens
  first : c.tokens.head?.any (fun n => n.glued && n.startsTagName) = true
  parts : ∃ slash gt, ts = slash :: c.tokens ++ [gt] ∧ slash.glued = true ∧ slash.isPunct '/' = true ∧
    gt.isPunct '>' = true ∧ ∀ us, tagNameTokens (c.tokens ++ gt :: us) = c.tokens

theorem written_of_returns {c : ClosingTag} {lt : Punct} {slash : Token} {ts : List Token} {s u : State}
    (hlt : lt.char = '<') (hrest : s.stream.rest = .punct lt :: slash :: ts) (hglued : slash.glued = true)
    (hslash : slash.isPunct '/' = true)
    (hfirst : ts.head?.any (fun n => n.glued && n.startsTagName) = true)
    (h : Returns closingTag s c u) :
    ∃ closing, slash :: ts = closing ++ u.stream.rest ∧ c.Written lt closing ∧
      u = s.movedOver (.punct lt :: closing) u.stream.rest := by
  obtain ⟨next, s₁, hpeek, h₁⟩ := h.bind
  obtain ⟨rfl, rfl⟩ := hpeek.peek
  obtain ⟨_, s₂, hskip, h₂⟩ := h₁.bind
  cases hskip.symm.trans (returns_skip [.punct lt, slash] hrest rfl)
  obtain ⟨name, s₃, hname, h₃⟩ := h₂.bind
  obtain ⟨hts, rfl⟩ := hname.rest
  obtain rfl : ts = name := hts.symm
  obtain ⟨_, s₄, hskip, h₄⟩ := h₃.bind
  obtain ⟨after, hafter⟩ := tagNameTokens_isPrefix ts
  cases hskip.symm.trans (returns_skip (tagNameTokens ts) hafter.symm rfl)
  obtain ⟨gt, s₅, hpeek, h₅⟩ := h₄.bind
  obtain ⟨rfl, rfl⟩ := hpeek.peek
  rw [State.movedOver_movedOver] at h₅
  cases after with
  | nil => exact h₅.fail.elim
  | cons gt after =>
    obtain ⟨_, s₆, hskip, h₆⟩ := h₅.bind
    cases hskip.symm.trans (returns_skip [gt] rfl rfl)
    split at h₆
    · rename_i hgt
      obtain ⟨rfl, rfl⟩ := h₆.pure
      refine ⟨slash :: tagNameTokens ts ++ [gt], ?_,
        ⟨hlt, ?_, rfl, ?_, slash, gt, rfl, hglued, hslash, hgt, ?_⟩, ?_⟩
      · simp [hafter, State.movedOver]
      · simp [hrest, Token.pos]
      · cases ts with
        | nil => cases hfirst
        | cons t ts =>
          have ht : t.glued = true ∧ t.startsTagName = true := by simpa using hfirst
          simp [tagNameTokens, Token.continuesTagName_of_starts ht.2, ht]
      · exact tagNameTokens_append hgt (by rw [hafter])
      · simp [State.movedOver]
    · exact h₆.unexpected.elim

/-- A closing tag is read in the same way wherever it stands. -/
theorem Written.returns {c : ClosingTag} {lt lt' : Punct} {ts us : List Token} {s : State}
    (h : c.Written lt ts) (hpos : lt'.pos = lt.pos) (hrest : s.stream.rest = .punct lt' :: ts ++ us) :
    Returns closingTag s c (s.movedOver (.punct lt' :: ts) us) := by
  obtain ⟨slash, gt, rfl, -, -, hgt, htokens⟩ := h.parts
  have hrest' : s.stream.rest = [.punct lt', slash] ++ (c.tokens ++ gt :: us) := by simp [hrest]
  refine Returns.andThen (a := s.stream.rest.head?) (t := s) rfl ?_
  refine (returns_skip _ hrest' rfl).andThen ?_
  refine Returns.andThen (a := c.tokens ++ gt :: us) (t := s.movedOver _ _) rfl ?_
  rw [htokens]
  refine (returns_skip c.tokens rfl rfl).andThen ?_
  rw [State.movedOver_movedOver]
  refine Returns.andThen (a := some gt) (t := s.movedOver _ (gt :: us)) rfl ?_
  refine (returns_skip [gt] rfl rfl).andThen ?_
  rw [State.movedOver_movedOver, if_pos hgt]
  obtain ⟨name, tokens, pos⟩ := c
  obtain rfl : name = tagName tokens := h.name
  obtain rfl : pos = lt'.pos := h.pos.trans hpos.symm
  rw [hrest]
  rfl

end ClosingTag

namespace Registry
variable {r : Registry} {t : Tools} {c : ClosingTag} {lt lt' : Punct} {ts us : List Token} {s u : State}

theorem written_of_tagEntry (hlt : lt.char = '<') (hrest : s.stream.rest = .punct lt :: ts)
    (h : Returns (r.tagEntry t lt ts) s (some c) u) :
    u.broken = s.broken ∧ ∃ closing, ts = closing ++ u.stream.rest ∧ c.Written lt closing := by
  obtain ⟨x, s₁, hget, h₁⟩ := h.bind
  obtain ⟨hx, hs₁⟩ := hget.get
  rw [hx, hs₁] at h₁
  dsimp only at h₁
  split at h₁
  · rename_i hclosing
    simp only [Bool.and_eq_true] at hclosing
    obtain ⟨slash, ts, rfl, hglued, hslash⟩ := exists_glued hclosing.1
    have hclose {s₁ : State} (h : Returns (do return some (← closingTag)) s₁ (some c) u)
        (hrest : s₁.stream.rest = .punct lt :: slash :: ts) (hbroken : s₁.broken = s.broken) :
        u.broken = s.broken ∧ ∃ closing, slash :: ts = closing ++ u.stream.rest ∧ c.Written lt closing := by
      obtain ⟨c', s₂, hread, h₂⟩ := h.bind
      obtain ⟨heq, rfl⟩ := h₂.pure
      cases heq
      obtain ⟨closing, hts, hwritten, hu⟩ :=
        ClosingTag.written_of_returns hlt hrest hglued hslash hclosing.2 hread
      exact ⟨by rw [hu]; exact hbroken, closing, hts, hwritten⟩
    split at h₁
    · obtain ⟨_, s₂, hspace, h₂⟩ := h₁.bind
      obtain ⟨_, _, hf⟩ := s.pushText_frame lt.pos lt.space
      have hs₂ := hspace.modify
      rw [hf] at hs₂
      subst hs₂
      exact hclose h₂ hrest rfl
    · exact hclose h₁ hrest rfl
  split at h₁
  · obtain ⟨_, _, _, h₂⟩ := h₁.bind
    cases h₂.pure.1
  split at h₁
  · split at h₁
    · obtain ⟨_, _, _, h₂⟩ := h₁.bind
      obtain ⟨_, _, _, h₃⟩ := h₂.bind
      cases h₃.pure.1
    · obtain ⟨_, _, _, h₂⟩ := h₁.bind
      cases h₂.pure.1
  · obtain ⟨_, _, _, h₂⟩ := h₁.bind
    split at h₂
    · obtain ⟨_, _, _, h₃⟩ := h₂.bind
      cases h₃.pure.1
    · obtain ⟨_, _, _, h₃⟩ := h₂.bind
      cases h₃.pure.1

/-- A closing tag with no white space before it adds nothing to the region. -/
theorem tagEntry_written (hc : c.Written lt ts) (hpos : lt'.pos = lt.pos) (hspace : lt'.space = [])
    (hmarkup : s.markup = true) (hrest : s.stream.rest = .punct lt' :: ts ++ us) :
    Returns (r.tagEntry t lt' (ts ++ us)) s (some c) (s.movedOver (.punct lt' :: ts) us) := by
  obtain ⟨slash, gt, rfl, hglued, hslash, -, -⟩ := hc.parts
  have hspace : Returns (emitText lt'.space lt'.pos) s () s := by
    rw [hspace]
    cases s with | mk world path includers declared stream sink atStart markup last broken trimLine =>
    cases trimLine <;> rfl
  have hfirst : ((slash :: c.tokens ++ [gt] ++ us).tail.head?.any fun n =>
      n.glued && n.startsTagName) = true := by
    have h := hc.first
    cases htokens : c.tokens with
    | nil => simp [htokens] at h
    | cons n ns => simpa [htokens] using h
  have hnext : ((slash :: c.tokens ++ [gt] ++ us).head?.filter Token.glued).any (·.isPunct '/') = true := by
    simp [Option.filter, hglued, hslash]
  refine Returns.andThen (a := s) (t := s) rfl ?_
  simp only [hmarkup, hnext, hfirst, Bool.and_self, if_true]
  refine hspace.andThen ?_
  exact (hc.returns hpos hrest).andThen rfl

end Registry

/-! ## The end of the children -/

/-- Of the tokens all have been read up to the closing tag, and the tag itself. -/
structure ClosingTag.Ends (c : ClosingTag) (ts : List Token) (u : State) : Prop where
  unbroken : u.broken = false
  read : ∃ before lt closing, ts = before ++ .punct lt :: closing ++ u.stream.rest ∧ c.Written lt closing

theorem ClosingTag.Ends.of_suffix {c : ClosingTag} {ts us : List Token} {u : State} (h : c.Ends us u)
    (hs : us <:+ ts) : c.Ends ts u := by
  obtain ⟨before, lt, closing, rfl, hwritten⟩ := h.read
  obtain ⟨front, rfl⟩ := hs
  exact ⟨h.unbroken, front ++ before, lt, closing, by simp, hwritten⟩

theorem ParseM.Meets.of_returns {α : Type} {E : Error → Prop} {P : State → Prop} {Q : α → State → Prop}
    {m : ParseM α} {s u : State} {a : α} (h : Meets E P m Q) (hs : P s) (hr : Returns m s a u) : Q a u := by
  have hq := h s hs
  rw [hr] at hq
  exact hq

namespace Contract
variable {C : Contract} {r : Registry} {t : Tools} {n : Nat} {ts : List Token} {s u : State} {c : ClosingTag}

/-- The loop gives a closing tag back when it has read the tag. -/
def GivesBack (C : Contract) (m : ParseM (Option ClosingTag)) (n : Nat) : Prop :=
  ∀ {ts : List Token} {s u : State} {c : ClosingTag}, Token.weights ts < n → C.At C.inv ts s →
    s.broken = false → Returns m s (some c) u → c.Ends ts u

theorem goOn_ends (hresume : C.GivesBack t.resume n) (hw : Token.weights ts < n) (hs : C.From C.inv ts s)
    (h : Returns (Registry.goOn t) s (some c) u) : c.Ends ts u := by
  obtain ⟨x, s₁, hget, h₁⟩ := h.bind
  obtain ⟨hx, hs₁⟩ := hget.get
  rw [hx, hs₁] at h₁
  split at h₁
  · obtain ⟨_, _, _, h₂⟩ := h₁.bind
    cases h₂.pure.1
  · rename_i hbroken
    have hlight := (Token.weights_suffix hs.2).trans_lt hw
    exact (hresume hlight ⟨hs.1, rfl⟩ (by simpa using hbroken) h₁).of_suffix hs.2

theorem turn_ends (ht : C.Serves t n) (hr : C.Obeys r) (hresume : C.GivesBack t.resume n)
    (hw : Token.weights ts ≤ n) (hs : C.At C.inv ts s) (hbroken : s.broken = false)
    (h : Returns (r.turn t) s (some c) u) : c.Ends ts u := by
  obtain ⟨_, s₁, hcheck, h₁⟩ := h.bind
  have hs₁ := (checkStop_meets C.framed).of_returns hs hcheck
  have hbroken₁ : s₁.broken = false := by
    obtain ⟨budget, rfl⟩ := hcheck.checkStop
    exact hbroken
  obtain ⟨us, s₂, hrest, h₂⟩ := h₁.bind
  obtain ⟨hus, hs₂⟩ := hrest.rest
  rw [hus, hs₂, hs₁.2] at h₂
  cases ts with
  | nil => cases h₂.pure.1
  | cons tok ts =>
    obtain ⟨_, s₃, hlast, h₃⟩ := h₂.bind
    have hs₃ := (setLast_meets C.framed _).of_returns hs₁ hlast
    have hbroken₃ : s₃.broken = false := by
      rw [hlast.modify]
      exact hbroken₁
    obtain ⟨x, s₄, hget, h₄⟩ := h₃.bind
    obtain ⟨hx, hs₄⟩ := hget.get
    rw [hx, hs₄] at h₄
    have hlight : Token.weights ts < n := (Token.weights_tail_lt tok ts).trans_le hw
    -- A step that takes the token leaves the closing tag to the turns that follow.
    have hgo {m : ParseM Unit} (hm : Meets C.error (C.At C.inv (tok :: ts)) m fun _ => C.From C.inv ts)
        (h : Returns (do m; Registry.goOn t) s₃ (some c) u) : c.Ends (tok :: ts) u := by
      obtain ⟨_, s₅, hstep, h₅⟩ := h.bind
      exact (goOn_ends hresume hlight (hm.of_returns hs₃ hstep) h₅).of_suffix (List.suffix_cons tok ts)
    have hpart := hs₃.1.part
    rw [hs₃.2] at hpart
    split at h₄
    · refine hgo (m := do skip 1; emitText (tok.space ++ tok.brief) tok.pos) ?_
        (by simpa only [bind_assoc] using h₄)
      exact (skip_meets C.framed 1).bind fun _ => (emitText_meets C.framed _ _).post fun _ _ hs => hs.from
    · rename_i f cs haction
      obtain rfl := Token.eq_of_action_group haction
      refine hgo (m := do skip 1; t.group f cs) ?_ (by simpa only [bind_assoc] using h₄)
      refine (skip_meets C.framed 1).bind fun _ => ?_
      exact (group_meets ht (inner_of_mem hpart hw (.head _))).post fun _ _ hs => hs.from
    · exact hgo (marker_meets ht hr hw) h₄
    · rename_i lt haction
      obtain rfl := Token.eq_of_action_tag haction
      obtain ⟨closing, s₅, hentry, h₅⟩ := h₄.bind
      cases closing with
      | some c' =>
        obtain ⟨heq, rfl⟩ := h₅.pure
        cases heq
        have hlt := Token.char_of_action_tag haction
        obtain ⟨hkept, closing, hts, hwritten⟩ := Registry.written_of_tagEntry hlt hs₃.2 hentry
        exact ⟨hkept.trans hbroken₃, [], lt, closing, by rw [hts]; rfl, hwritten⟩
      | none =>
        have hs₅ := ((tagEntry_meets ht hr hw).of_returns hs₃ hentry).2
        exact (goOn_ends hresume hlight hs₅ h₅).of_suffix (List.suffix_cons _ ts)
    · refine hgo (m := do emit (← t.expression)) ?_ (by simpa only [bind_assoc] using h₄)
      refine (expression_meets ht hw).bind fun expr => .given fun hexpr => ?_
      refine from_intro fun us hus _ => ?_
      exact (emit_meets C.framed hexpr).post fun _ _ hs => hs.from.mono hus
    · rename_i l _
      have hnode : Postpone C.later [.literal l] := .single trivial (by simp [lists])
      refine hgo (m := do skip 1; emit [.literal l]) ?_ (by simpa only [bind_assoc] using h₄)
      exact (skip_meets C.framed 1).bind fun _ => (emit_meets C.framed hnode).post fun _ _ hs => hs.from
    · rename_i p haction
      obtain rfl := Token.eq_of_action_code haction
      exact hgo (code_meets ht hw) h₄
    · cases h₄.pure.1

/-- A closing tag that the loop gives back stands right before the tokens that are left. -/
theorem loop_ends {embed : Text → Text → ParseM Fragment} (hr : C.Obeys r) (he : C.Embeds embed) (n : Nat) :
    C.GivesBack (r.loop C.settings embed n) n := by
  induction n with
  | zero => exact fun hw => absurd hw (Nat.not_lt_zero _)
  | succ n ih =>
    intro ts s u c hw hs hbroken h
    refine turn_ends ⟨rfl, rfl, fun us hus => loop_meets hr he n hus, ?_⟩ hr ih (Nat.le_of_lt_succ hw) hs
      hbroken h
    exact fun hpos hnames hleads => he _ rfl rfl hpos hnames hleads

end Contract

/-! ## Runs that may do anything -/

namespace Contract

/-- A run from a state on that may do anything. -/
def free (settings : Settings) (s : State) : Contract where
  settings := settings
  path := s.path
  includers := s.includers
  tokens := .punct ⟨s.stream.stop, [], ' '⟩ :: s.stream.rest
  error _ := True
  later _ _ _ _ := True
  inv _ := True
  pending _ _ := True
  stopped _ _ := trivial
  unread _ _ _ _ := trivial
  fault _ _ _ := trivial
  postponed _ _ _ := trivial
  framed _ _ _ _ _ _ := trivial
  pendingFramed _ _ _ _ _ _ _ := trivial
  note _ _ _ := trivial
  directive _ _ _ _ _ := trivial
  merge _ := trivial
  hit _ _ _ := ⟨.of_forall fun _ _ _ _ => trivial, trivial⟩
  put _ _ _ _ := trivial
  pendingPut _ _ _ _ := trivial

theorem free_at (settings : Settings) (s : State) :
    (free settings s).At (free settings s).inv s.stream.rest s where
  left := {
    path := rfl
    includers := rfl
    part := .tail .whole
    stop := fun _ => ⟨_, .here (.head _), rfl⟩
    sink := .of_forall fun _ _ _ _ => trivial
    inv := trivial }
  right := rfl

theorem free_embeds (r : Registry) (settings : Settings) (k : Nat) (s : State) :
    (free settings s).Embeds (r.embedIn settings k s.includers s.path) := by
  refine embeds_of (C := free settings s) (fun _ _ _ _ => trivial) fun _ _ _ v _ _ => ?_
  split
  · exact ⟨.of_forall fun _ _ _ _ => trivial, trivial⟩
  · trivial

end Contract

/-! ## Children -/

/-- The state in an element, where its children are a region of their own. -/
def State.inside (s : State) : State :=
  { s with sink := [], markup := true, atStart := s.atStatementStart }

/-- The state back in the region around an element. -/
def State.backIn (outer s : State) : State :=
  { s with sink := outer.sink, markup := outer.markup, atStart := outer.atStart }

namespace Registry
variable {r : Registry} {t : Tools} {name : Text} {s u : State}

/-- The children are read up to a closing tag by a check and the turns of the loop. -/
theorem children_closed_iff {kids : List Node} {c : ClosingTag}
    (hraw : r.isRawText name = false) :
    Returns (r.children t name) s (kids, some c) u ↔
      ∃ s₁ s₂, Returns checkStop s.inside () s₁ ∧ Returns t.resume s₁ (some c) s₂ ∧
        kids = s₂.sink.reverse ∧ u = s.backIn s₂ := by
  have hcontent : r.content t name = (do checkStop; t.resume) := by simp [content, hraw, Tools.parse]
  rw [children_eq, hcontent]
  constructor
  · intro h
    obtain ⟨x, s₁, hget, h₁⟩ := h.bind
    obtain ⟨hx, hs₁⟩ := hget.get
    rw [hx, hs₁] at h₁
    obtain ⟨_, s₂, hset, h₂⟩ := h₁.bind
    rw [hset.set] at h₂
    obtain ⟨closing, s₃, hchildren, h₃⟩ := h₂.bind
    obtain ⟨_, s₄, hcheck, hresume⟩ := hchildren.bind
    obtain ⟨inner, s₅, hget, h₅⟩ := h₃.bind
    obtain ⟨hinner, -⟩ := hget.get
    rw [hinner] at h₅
    obtain ⟨_, s₆, hset', h₆⟩ := h₅.bind
    obtain ⟨heq, rfl⟩ := h₆.pure
    cases heq
    exact ⟨s₄, s₃, hcheck, hresume, rfl, hset'.set⟩
  · rintro ⟨s₁, s₂, hcheck, hresume, rfl, rfl⟩
    refine Returns.andThen (a := s) (t := s) rfl ?_
    have hset : Returns (set s.inside) s ⟨⟩ s.inside := rfl
    refine hset.andThen ?_
    refine Returns.andThen (hcheck.andThen hresume) ?_
    exact Returns.andThen (a := s₂) (t := s₂) rfl rfl

/-- A closing tag at once ends the loop. -/
theorem turn_written {c : ClosingTag} {lt lt' : Punct} {closing after : List Token} {s₁ : State}
    (hc : c.Written lt closing) (hchar : lt'.char = '<') (hpos : lt'.pos = lt.pos) (hspace : lt'.space = [])
    (hcheck : Returns checkStop s () s₁) (hmarkup : s₁.markup = true)
    (hrest : s₁.stream.rest = .punct lt' :: closing ++ after) :
    Returns (r.turn t) s (some c) ({ s₁ with last := lt'.pos }.movedOver (.punct lt' :: closing) after) := by
  have hlast : Returns (setLast (Token.punct lt').pos) s₁ () { s₁ with last := lt'.pos } := rfl
  have hmarkup' : ({ s₁ with last := lt'.pos } : State).markup = true := hmarkup
  have hrest' : ({ s₁ with last := lt'.pos } : State).stream.rest = .punct lt' :: closing ++ after := hrest
  generalize ({ s₁ with last := lt'.pos } : State) = s₂ at hlast hmarkup' hrest' ⊢
  have haction : (Token.punct lt').action s₂.markup s₂.atStatementStart = .tag lt' := by
    simp [Token.action, hchar, hmarkup']
  refine hcheck.andThen ?_
  refine Returns.andThen (a := s₁.stream.rest) (t := s₁) rfl ?_
  rw [hrest]
  refine hlast.andThen ?_
  refine Returns.andThen (a := s₂) (t := s₂) rfl ?_
  rw [haction]
  exact (tagEntry_written hc hpos hspace hmarkup' hrest').andThen rfl

end Registry

end Atmark
