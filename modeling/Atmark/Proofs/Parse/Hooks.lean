import Atmark.Proofs.Parse.Markup

/-! What element hooks can change in static markup: only the nodes of the elements whose name they accept.
A registry is compared with its copy without element hooks. Both runs stand at the same place all along
(`State.Alike`), and the regions they fill are the same as long as the bare one holds no element that a
hook accepts; so if it never does, both parse to the same nodes (`parse_bare`). -/
namespace Atmark
open Node ParseM

/-! ## Two runs side by side -/

namespace ParseM
variable {α β : Type}

/-- Whatever the first step returns from a state with a counterpart, the second returns alike. -/
def Follows (P : State → State → Prop) (m m' : ParseM α) (R : α → α → Prop) : Prop :=
  ∀ s s' a t, P s s' → Returns m s a t → ∃ b t', Returns m' s' b t' ∧ P t t' ∧ R a b

namespace Follows
variable {P : State → State → Prop} {R : α → α → Prop} {Q : β → β → Prop}

theorem bind {m m' : ParseM α} {f f' : α → ParseM β} (hm : Follows P m m' R)
    (hf : ∀ a b, R a b → Follows P (f a) (f' b) Q) : Follows P (m >>= f) (m' >>= f') Q := by
  intro s s' b t hs h
  obtain ⟨a, s₁, h₁, h₂⟩ := h.bind
  obtain ⟨a', s₁', h₁', hs₁, hr⟩ := hm s s' a s₁ hs h₁
  obtain ⟨b', t', h₂', ht, hq⟩ := hf a a' hr s₁ s₁' b t hs₁ h₂
  refine ⟨b', t', ?_, ht, hq⟩
  simp only [Returns, Bind.bind, EStateM.bind] at h₁' h₂' ⊢
  rw [h₁']
  exact h₂'

theorem pure {a b : α} (h : R a b) : Follows P (Pure.pure a) (Pure.pure b) R := by
  intro s s' c t hs hret
  obtain ⟨rfl, rfl⟩ := hret.pure
  exact ⟨b, s', rfl, hs, h⟩

theorem throw (e : Error) (m : ParseM α) : Follows P (MonadExcept.throw e) m R :=
  fun _ _ _ _ _ h => h.throw.elim

theorem fail (pos : Option Position) (cause : Fault) (m : ParseM α) :
    Follows P (ParseM.fail pos cause) m R :=
  fun _ _ _ _ _ h => h.fail.elim

theorem unexpected (t : Token) (c : Context) (m : ParseM α) :
    Follows P (ParseM.unexpected t c) m R :=
  fun _ _ _ _ _ h => h.unexpected.elim

theorem get : Follows P MonadState.get MonadState.get P := by
  intro s s' x t hs h
  obtain ⟨rfl, rfl⟩ := h.get
  exact ⟨s', s', rfl, hs, hs⟩

theorem set {x x' : State} (h : P x x') :
    Follows P (MonadStateOf.set x) (MonadStateOf.set x') Eq := by
  intro s s' u t _ hret
  rw [hret.set]
  exact ⟨u, x', rfl, h, rfl⟩

theorem modify {f f' : State → State} (h : ∀ s s', P s s' → P (f s) (f' s')) :
    Follows P (modify f) (modify f') Eq := by
  intro s s' u t hs hret
  rw [hret.modify]
  exact ⟨u, f' s', rfl, h s s' hs, rfl⟩

end Follows
end ParseM

/-! ## The same place -/

/-- The registry without element hooks. -/
def Registry.bare (r : Registry) : Registry := { r with elementHooks := [] }

/-- The node begins an element that a hook of the registry accepts. -/
def Registry.hooks (r : Registry) : Node → Bool
  | .tagStart name _ => r.elementHooks.any (·.accepts name)
  | _ => false

/-- The two states stand at the same place of static markup, and in the same region, unless the second
region has an element that a hook accepts. -/
structure State.Alike (r : Registry) (s s' : State) : Prop where
  left : s.markup = true ∧ s.broken = false ∧ s.trimLine = false
  right : s'.markup = true ∧ s'.broken = false ∧ s'.trimLine = false
  stream : s'.stream = s.stream
  static : Token.Static s.stream.rest
  budget : s'.world.budget = s.world.budget
  sink : (∀ n ∈ s'.sink, r.hooks n = false) → s.sink = s'.sink

/-- Nodes that are the same, unless the second have an element that a hook accepts. -/
def Registry.SameNodes (r : Registry) (ns ns' : List Node) : Prop :=
  (∀ n ∈ ns', r.hooks n = false) → ns = ns'

theorem Registry.hooks_of_isText (r : Registry) {n : Node} (h : n.isText = true) :
    r.hooks n = false := by
  cases n with
  | text => rfl
  | _ => cases h

namespace State

/-- What a region becomes depends on the region and on what is left out of the line only. -/
theorem push_congr {s s' : State} (hs : s.sink = s'.sink) (ht : s.trimLine = s'.trimLine) (n : Node) :
    (s.push n).sink = (s'.push n).sink ∧ (s.push n).trimLine = (s'.push n).trimLine := by
  cases n with
  | text pos t =>
    simp only [push]
    unfold pushText
    rw [hs, ht]
    generalize (if s'.trimLine then trimText t else (t, false)) = p
    obtain ⟨trimmed, trimLine⟩ := p
    dsimp only
    cases trimmed.isEmpty with
    | true => exact ⟨rfl, rfl⟩
    | false =>
      cases s'.sink with
      | nil => exact ⟨rfl, rfl⟩
      | cons m ns => cases m <;> exact ⟨rfl, rfl⟩
  | _ => simp [push, hs]

theorem foldl_push_congr {s s' : State} (hs : s.sink = s'.sink) (ht : s.trimLine = s'.trimLine)
    (ns : List Node) : (ns.foldl push s).sink = (ns.foldl push s').sink := by
  induction ns generalizing s s' with
  | nil => exact hs
  | cons n ns ih =>
    obtain ⟨hs', ht'⟩ := push_congr hs ht n
    exact ih hs' ht'

theorem push_trimLine {s : State} (ht : s.trimLine = false) (n : Node) : (s.push n).trimLine = false := by
  cases n with
  | text pos t => exact (pushText_wrote ht pos t).1.trimLine.trans ht
  | _ => rfl

theorem foldl_push_trimLine {s : State} (ht : s.trimLine = false) (ns : List Node) :
    (ns.foldl push s).trimLine = false := by
  induction ns generalizing s with
  | nil => exact ht
  | cons n ns ih => exact ih (push_trimLine ht n)

namespace Alike
variable {r : Registry} {s s' : State}

/-- Nodes that are the same go to regions that are the same. -/
theorem foldl_push (h : s.Alike r s') {ns ns' : List Node} (hns : r.SameNodes ns ns') :
    (ns.foldl push s).Alike r (ns'.foldl push s') := by
  have ht := foldl_push_trimLine h.left.2.2 ns
  have ht' := foldl_push_trimLine h.right.2.2 ns'
  have hsink : (∀ n ∈ (ns'.foldl push s').sink, r.hooks n = false) →
      (ns.foldl push s).sink = (ns'.foldl push s').sink := by
    intro hp
    have hadded : ∀ n ∈ ns', r.hooks n = false := by
      intro n hn
      rcases mem_foldl_push (s := s') hn with htext | hn
      · exact r.hooks_of_isText htext
      · exact hp n hn
    have hbefore : ∀ n ∈ s'.sink, r.hooks n = false := by
      intro n hn
      rcases kept_foldl_push ns' hn with htext | hn
      · exact r.hooks_of_isText htext
      · exact hp n hn
    rw [hns hadded]
    exact foldl_push_congr (h.sink hbefore) (h.left.2.2.trans h.right.2.2.symm) ns'
  obtain ⟨sink, trimLine, hf⟩ := foldl_push_frame ns s
  obtain ⟨sink', trimLine', hf'⟩ := foldl_push_frame ns' s'
  rw [hf, hf'] at hsink
  rw [hf] at ht
  rw [hf'] at ht'
  rw [hf, hf']
  exact ⟨⟨h.left.1, h.left.2.1, ht⟩, ⟨h.right.1, h.right.2.1, ht'⟩, h.stream, h.static, h.budget, hsink⟩

theorem withStream (h : s.Alike r s') {x x' : Stream} (hx : x' = x) (hstatic : Token.Static x.rest) :
    Alike r { s with stream := x } { s' with stream := x' } :=
  ⟨h.left, h.right, hx, hstatic, h.budget, h.sink⟩

end Alike
end State

/-! ## Steps that no hook changes -/

namespace ParseM
variable {r : Registry}

/-- The step returns the same with and without hooks. -/
abbrev Same {α : Type} (r : Registry) (m m' : ParseM α) : Prop := Follows (State.Alike r) m m' Eq

theorem rest_same : Follows (State.Alike r) rest rest fun ts ts' => ts = ts' ∧ Token.Static ts := by
  intro s s' ts t hs h
  obtain ⟨rfl, rfl⟩ := h.rest
  exact ⟨_, s', rfl, hs, by rw [hs.stream], hs.static⟩

theorem peek_same : Same r peek peek := by
  intro s s' tok t hs h
  obtain ⟨rfl, rfl⟩ := h.peek
  exact ⟨_, s', rfl, hs, by rw [Stream.peek, hs.stream]⟩

theorem skip_same (n : Nat) : Same r (skip n) (skip n) :=
  .modify fun _ _ hs => hs.withStream (by rw [hs.stream]) (by simpa using hs.static.drop n)

theorem setLast_same (pos pos' : Option Position) : Same r (setLast pos) (setLast pos') :=
  .modify fun _ _ hs => ⟨hs.left, hs.right, hs.stream, hs.static, hs.budget, hs.sink⟩

/-- A record in the log makes no difference. -/
theorem note_left {message : String} {fields : List (String × Text)} {α : Type} {m m' : ParseM α}
    {R : α → α → Prop} (h : Follows (State.Alike r) m m' R) :
    Follows (State.Alike r) (do note message fields; m) m' R := by
  intro s s' a t hs hret
  obtain ⟨_, s₁, hnote, h₁⟩ := hret.bind
  cases hnote.modify
  refine h _ s' a t ?_ h₁
  exact ⟨hs.left, hs.right, hs.stream, hs.static, hs.budget, hs.sink⟩

theorem checkStop_same : Same r checkStop checkStop := by
  refine Follows.get.bind fun s s' hs => ?_
  rw [hs.budget]
  split
  · exact .pure rfl
  · exact .throw _ _
  · exact .set ⟨hs.left, hs.right, hs.stream, hs.static, rfl, hs.sink⟩

theorem emit_same {ns ns' : List Node} (h : r.SameNodes ns ns') : Same r (emit ns) (emit ns') :=
  .modify fun _ _ hs => hs.foldl_push h

theorem emitText_same (x : Text) (pos : Option Position) : Same r (emitText x pos) (emitText x pos) := by
  have h : r.SameNodes [.text pos x] [.text pos x] := fun _ => rfl
  exact .modify fun _ _ hs => hs.foldl_push h

theorem closingTag_same : Same r closingTag closingTag := by
  refine peek_same.bind ?_
  rintro lt _ rfl
  refine (skip_same _).bind fun _ _ _ => ?_
  refine rest_same.bind ?_
  rintro ts _ ⟨rfl, -⟩
  refine (skip_same _).bind fun _ _ _ => ?_
  refine peek_same.bind ?_
  rintro gt _ rfl
  split
  · exact .fail _ _ _
  · refine (skip_same _).bind fun _ _ _ => ?_
    split
    · exact .pure rfl
    · exact .unexpected _ _ _

theorem commentFrom_same (pos : Option Position) (ts : List Token) :
    Same r (commentFrom pos ts) (commentFrom pos ts) := by
  induction ts with
  | nil => exact checkStop_same.bind fun _ _ _ => .fail _ _ _
  | cons tok ts ih =>
    refine checkStop_same.bind fun _ _ _ => ?_
    split
    · exact (skip_same _).bind fun _ _ _ => .pure rfl
    · refine (skip_same _).bind fun _ _ _ => ih.bind ?_
      rintro x _ rfl
      exact .pure rfl

theorem comment_same (lt : Punct) : Same r (comment lt) (comment lt) := by
  refine Follows.get.bind fun s s' hs => ?_
  rw [hs.left.1, hs.right.1]
  refine (skip_same _).bind fun _ _ _ => rest_same.bind ?_
  rintro ts _ ⟨rfl, -⟩
  refine (commentFrom_same _ _).bind ?_
  rintro x _ rfl
  exact emitText_same _ _

end ParseM

namespace Tools
variable {r : Registry} {t t' : Tools}

theorem unquotedValue_same (tok : Token) (ts : List Token) :
    Same r (unquotedValue tok ts) (unquotedValue tok ts) :=
  (skip_same _).bind fun _ _ _ => .pure rfl

theorem attrValue_same (tag attr : Text) {tok : Token} (ts : List Token)
    (hat : tok.isPunct '@' = false) :
    Same r (t.attrValue tag attr tok ts) (t'.attrValue tag attr tok ts) := by
  have hrun : Same r (do return (⟨tok.pos, ← unquotedValue tok ts, []⟩ : AttrValue))
      (do return ⟨tok.pos, ← unquotedValue tok ts, []⟩) := by
    refine (unquotedValue_same tok ts).bind ?_
    rintro v _ rfl
    exact .pure rfl
  unfold attrValue
  split
  · refine (skip_same _).bind fun _ _ _ => ?_
    split <;> exact .pure rfl
  · exact hrun
  · split
    · split
      · exact .fail _ _ _
      · exact (skip_same _).bind fun _ _ _ => .pure rfl
    split
    · exact hrun
    split
    · rename_i hc
      simp [Token.isPunct, hc] at hat
    split
    · exact .fail _ _ _
    · exact .unexpected _ _ _
  · exact .unexpected _ _ _

theorem attributesWithin_same (lt : Option Position) (tag : Text) (n : Nat) (reading : TagReading)
    (focus : TagFocus) : Same r (t.attributesWithin lt tag n reading focus)
      (t'.attributesWithin lt tag n reading focus) := by
  induction n generalizing reading focus with
  | zero => exact .throw _ _
  | succ n ih =>
    have hmore (k : Nat) (reading : TagReading) (focus : TagFocus) :
        Same r (do skip k; t.attributesWithin lt tag n reading focus)
          (do skip k; t'.attributesWithin lt tag n reading focus) :=
      (skip_same _).bind fun _ _ _ => ih _ _
    refine checkStop_same.bind fun _ _ _ => rest_same.bind ?_
    rintro ts _ ⟨rfl, hstatic⟩
    cases ts with
    | nil => exact .fail _ _ _
    | cons tok ts =>
      refine (setLast_same _ _).bind fun _ _ _ => ?_
      cases focus with
      | value k equals =>
        refine (attrValue_same tag k.text ts (hstatic.not_marker (.head _))).bind ?_
        rintro v _ rfl
        exact ih _ _
      | name =>
        cases tok with
        | ident i => exact hmore _ _ _
        | group f cs => exact .unexpected _ _ _
        | literal l =>
          dsimp only
          split
          · exact hmore _ _ _
          · exact .unexpected _ _ _
        | punct p =>
          dsimp only
          split
          · exact (skip_same _).bind fun _ _ _ => .pure rfl
          split
          · split
            · exact (skip_same _).bind fun _ _ _ => .pure rfl
            · exact .fail _ _ _
          split
          · split
            · exact .fail _ _ _
            · exact hmore _ _ _
          split
          · exact hmore _ _ _
          · exact .unexpected _ _ _

theorem attributes_same (lt : Option Position) (tag : Text) :
    Same r (t.attributes lt tag) (t'.attributes lt tag) := by
  refine rest_same.bind ?_
  rintro ts _ ⟨rfl, -⟩
  exact attributesWithin_same _ _ _ _ _

/-- The tools of two runs, the second without hooks. -/
structure Alike (r : Registry) (t t' : Tools) : Prop where
  turns : t'.turns = t.turns
  resume : Same r t.resume t'.resume

theorem parse_same (ht : Alike r t t') : Same r t.parse t'.parse :=
  checkStop_same.bind fun _ _ _ => ht.resume

theorem group_same (ht : Alike r t t') (f : Frame) {cs : List Token} (hcs : Token.Static cs) :
    Same r (t.group f cs) (t'.group f cs) := by
  refine Follows.get.bind fun s s' hs => ?_
  simp only [hs.left.1, hs.right.1, if_true]
  refine (emitText_same _ _).bind fun _ _ _ => ?_
  refine Follows.get.bind fun outer outer' ho => ?_
  refine Follows.bind (.set (ho.withStream rfl hcs)) fun _ _ _ => ?_
  refine (parse_same ht).bind ?_
  rintro closing _ rfl
  refine Follows.bind (.modify fun s s' hs => ?_) fun _ _ _ => ?_
  · rw [ho.left.1, ho.right.1]
    exact ⟨⟨rfl, hs.left.2⟩, ⟨rfl, hs.right.2⟩, ho.stream, ho.static, hs.budget, hs.sink⟩
  · cases closing with
    | some c => exact .fail _ _ _
    | none => exact emitText_same _ _

end Tools

/-! ## Elements and the loop -/

namespace Registry
variable {r : Registry} {t t' : Tools}

theorem rawTextWithin_same (name : Text) (n : Nat) :
    Same r (r.rawTextWithin t name n) (r.bare.rawTextWithin t' name n) := by
  induction n with
  | zero => exact .throw _ _
  | succ n ih =>
    refine checkStop_same.bind fun _ _ _ => rest_same.bind ?_
    rintro ts _ ⟨rfl, hstatic⟩
    cases ts with
    | nil => exact .pure rfl
    | cons tok ts =>
      refine (setLast_same _ _).bind fun _ _ _ => ?_
      split
      · refine (emitText_same _ _).bind fun _ _ _ => closingTag_same.bind ?_
        rintro c _ rfl
        exact .pure rfl
      · simp only [hstatic.not_marker (.head _), Bool.false_and, Bool.false_eq_true, if_false]
        exact (skip_same _).bind fun _ _ _ => (emitText_same _ _).bind fun _ _ _ => ih

theorem content_same (ht : t.Alike r t') (name : Text) :
    Same r (r.content t name) (r.bare.content t' name) := by
  have hraw : r.bare.isRawText name = r.isRawText name := rfl
  unfold content
  rw [hraw, ht.turns]
  split
  · exact rawTextWithin_same name _
  · exact Tools.parse_same ht

theorem children_same (ht : t.Alike r t') (name : Text) :
    Follows (State.Alike r) (r.children t name) (r.bare.children t' name) fun c c' =>
      r.SameNodes c.1 c'.1 ∧ c.2 = c'.2 := by
  -- Both runs start with an empty region inside, and take up the outer ones afterwards as they were.
  rw [children_eq, children_eq]
  refine Follows.get.bind fun outer outer' ho => ?_
  have hinner : State.Alike r
      { outer with sink := [], markup := true, atStart := outer.atStatementStart }
      { outer' with sink := [], markup := true, atStart := outer'.atStatementStart } :=
    ⟨⟨rfl, ho.left.2⟩, ⟨rfl, ho.right.2⟩, ho.stream, ho.static, ho.budget, fun _ => rfl⟩
  refine Follows.bind (.set hinner) fun _ _ _ => ?_
  refine (content_same ht name).bind ?_
  rintro closing _ rfl
  refine Follows.get.bind fun inner inner' hi => ?_
  have houter : State.Alike r
      { inner with sink := outer.sink, markup := outer.markup, atStart := outer.atStart }
      { inner' with sink := outer'.sink, markup := outer'.markup, atStart := outer'.atStart } :=
    ⟨⟨ho.left.1, hi.left.2⟩, ⟨ho.right.1, hi.right.2⟩, hi.stream, hi.static, hi.budget, ho.sink⟩
  refine Follows.bind (.set houter) fun _ _ _ => .pure ⟨fun hp => ?_, rfl⟩
  rw [hi.sink fun n hn => hp n (List.mem_reverse.mpr hn)]

/-- A hook only changes an element that it accepts. -/
theorem elementNodes_same {c c' : ElementContext} (hname : c.name = c'.name)
    (hc : r.SameNodes c.default c'.default)
    (hstart : r.elementHooks.any (·.accepts c'.name) = true → ∃ n ∈ c'.default, r.hooks n = true) :
    Follows (State.Alike r) (r.elementNodes c) (r.bare.elementNodes c') r.SameNodes := by
  rw [elementNodes_default (r := r.bare) rfl]
  unfold elementNodes
  split
  · exact .pure hc
  · rename_i h hh
    have hmem : h ∈ r.elementHooks.filter (·.accepts c.name) := hh ▸ List.mem_singleton_self h
    obtain ⟨hmem, haccepts⟩ := List.mem_filter.mp hmem
    have hother (ns : List Node) : r.SameNodes ns c'.default := by
      intro hp
      obtain ⟨n, hn, hhooked⟩ := hstart (List.any_eq_true.mpr ⟨h, hmem, hname ▸ haccepts⟩)
      rw [hp n hn] at hhooked
      cases hhooked
    split
    · exact .throw _ _
    · exact .pure (hother _)
    · exact note_left (.pure (hother _))
  · exact .fail _ _ _

theorem element_same (hr : r.tagHooks = []) (ht : t.Alike r t') (lt : Punct) :
    Same r (r.element t lt) (r.bare.element t' lt) := by
  have hvoid (name : Text) : r.bare.isVoid name = r.isVoid name := rfl
  unfold element
  simp only [tagNodes_default hr, tagNodes_default (r := r.bare) hr, hvoid]
  refine (skip_same _).bind fun _ _ _ => rest_same.bind ?_
  rintro ts _ ⟨rfl, -⟩
  refine (skip_same _).bind fun _ _ _ => ?_
  refine (Tools.attributes_same _ _).bind ?_
  rintro ⟨reading, stop⟩ _ rfl
  generalize tagName (tagNameTokens ts) = name
  -- The opening tag is kept in mind: it is where an element that a hook accepts shows.
  refine Follows.bind (R := fun a b => a = b ∧ (r.isVoid name = false → ∃ us, .tagStart name us ∈ a))
    (.pure ⟨rfl, fun hv => ⟨tagNameTokens ts, ?_⟩⟩) ?_
  · simp [TagContext.default, hv]
  rintro opening _ ⟨rfl, hstart⟩
  split
  · exact emit_same fun _ => rfl
  · rename_i hopen
    refine (children_same ht _).bind ?_
    rintro ⟨children, closing⟩ ⟨children', _⟩ ⟨hchildren, rfl⟩
    cases closing with
    | none => exact .fail _ _ _
    | some c =>
      dsimp only
      split
      · exact Follows.bind (Follows.fail (R := fun _ _ => False) _ _ _) fun _ _ h => h.elim
      · refine Follows.bind (.pure rfl) ?_
        rintro stop _ rfl
        refine Follows.bind (elementNodes_same rfl ?_ ?_) fun ns ns' hns => emit_same hns
        · intro hp
          have hsame : children = children' :=
            hchildren fun n hn => hp n (by simp [ElementContext.default, hn])
          simp [ElementContext.default, hsame]
        · intro hany
          obtain ⟨us, hmem⟩ := hstart (by simp at hopen; exact hopen.1)
          exact ⟨.tagStart name us, by simp [ElementContext.default, hmem], hany⟩

theorem tagEntry_same (hr : r.tagHooks = []) (ht : t.Alike r t') (lt : Punct) (ts : List Token) :
    Same r (r.tagEntry t lt ts) (r.bare.tagEntry t' lt ts) := by
  refine Follows.get.bind fun s s' hs => ?_
  simp only [hs.left.1, hs.right.1, if_true]
  split
  · refine (emitText_same _ _).bind fun _ _ _ => closingTag_same.bind ?_
    rintro c _ rfl
    exact .pure rfl
  · split
    · exact (comment_same lt).bind fun _ _ _ => .pure rfl
    · split
      · refine (emitText_same _ _).bind fun _ _ _ => ?_
        exact (element_same hr ht lt).bind fun _ _ _ => .pure rfl
      · refine (skip_same _).bind fun _ _ _ => ?_
        exact (emitText_same _ _).bind fun _ _ _ => .pure rfl

theorem goOn_same (ht : t.Alike r t') : Same r (goOn t) (goOn t') := by
  refine Follows.get.bind fun s s' hs => ?_
  simp only [hs.left.2.1, hs.right.2.1, Bool.false_eq_true, if_false]
  exact ht.resume

theorem turn_same (hr : r.tagHooks = []) (ht : t.Alike r t') : Same r (r.turn t) (r.bare.turn t') := by
  refine checkStop_same.bind fun _ _ _ => rest_same.bind ?_
  rintro ts _ ⟨rfl, hstatic⟩
  cases ts with
  | nil => exact .pure rfl
  | cons tok ts =>
    refine (setLast_same _ _).bind fun _ _ _ => ?_
    refine Follows.get.bind fun s s' hs => ?_
    rw [hs.left.1, hs.right.1]
    have htext : Same r (do skip 1; emitText (tok.space ++ tok.brief) tok.pos; goOn t)
        (do skip 1; emitText (tok.space ++ tok.brief) tok.pos; goOn t') :=
      (skip_same _).bind fun _ _ _ => (emitText_same _ _).bind fun _ _ _ => goOn_same ht
    cases tok with
    | ident i => exact htext
    | literal l => exact htext
    | group f cs =>
      refine (skip_same _).bind fun _ _ _ => ?_
      exact (Tools.group_same ht f hstatic.group).bind fun _ _ _ => goOn_same ht
    | punct p =>
      have hat : p.char ≠ '@' := (hstatic p (.here (.head _))).1
      rw [action_punct hat, action_punct hat]
      by_cases hlt : p.char = '<'
      · simp only [hlt, if_true]
        refine (tagEntry_same hr ht p ts).bind ?_
        rintro closing _ rfl
        cases closing with
        | some c => exact .pure rfl
        | none => exact goOn_same ht
      · simp only [hlt, if_false]
        exact htext

theorem loop_same (hr : r.tagHooks = []) (settings : Settings)
    (embed embed' : Text → Text → ParseM Fragment) (n : Nat) :
    Same r (r.loop settings embed n) (r.bare.loop settings embed' n) := by
  induction n with
  | zero => exact .throw _ _
  | succ n ih => exact turn_same hr ⟨rfl, ih⟩

theorem readTokens_same (hr : r.tagHooks = []) (settings : Settings)
    (embed embed' : Text → Text → ParseM Fragment) (n : Nat) (tokens : List Token) (trailing : Text) :
    Same r (r.readTokens settings embed n tokens trailing)
      (r.bare.readTokens settings embed' n tokens trailing) := by
  refine checkStop_same.bind fun _ _ _ => (loop_same hr settings embed embed' n).bind ?_
  rintro closing _ rfl
  cases closing with
  | some c => exact .fail _ _ _
  | none => exact emitText_same _ _

/-- Without its element hooks a registry parses the same static sources, and to the same nodes unless
they have an element that a hook accepts. -/
theorem parseSource_bare (hr : r.tagHooks = []) {settings : Settings} {n : Nat} {includers : List Text}
    {path src : Text} {w w' : World} {ns : List Node} {d : Declarations}
    (hstatic : ∀ tokens trailing, Token.lex src = .ok (tokens, trailing) → Token.Static tokens)
    (h : r.parseSource settings n includers path src w = .ok (ns, d) w') :
    ∃ ns' d' w'', r.bare.parseSource settings n includers path src w = .ok (ns', d') w'' ∧
      r.SameNodes ns ns' := by
  cases n with
  | zero => cases h
  | succ n =>
    cases hl : Token.lex src with
    | error e =>
      unfold parseSource at h
      rw [hl] at h
      cases h
    | ok p =>
      obtain ⟨tokens, trailing⟩ := p
      rw [parseSource_lexed r settings n includers path src w hl] at h
      rw [parseSource_lexed r.bare settings n includers path src w hl]
      split at h
      · rename_i u s w₁ hp
        obtain ⟨hret, rfl⟩ := returns_of_ofParse hp
        cases h
        have hstart : State.Alike r { world := w, path, includers, stream := .ofTokens tokens }
            { world := w, path, includers, stream := .ofTokens tokens } :=
          ⟨⟨rfl, rfl, rfl⟩, ⟨rfl, rfl, rfl⟩, rfl, hstatic tokens trailing hl, rfl, fun _ => rfl⟩
        obtain ⟨u', s', hret', hs', -⟩ := readTokens_same hr settings _
          (r.bare.embedIn settings n includers path) _ tokens trailing _ _ u s hstart hret
        refine ⟨s'.sink.reverse, s'.declared, s'.world, ?_, ?_⟩
        · have hturns : r.bare.turns w tokens = r.turns w tokens := rfl
          unfold WorldM.ofParse
          dsimp only
          rw [hturns, hret']
        · intro hp
          rw [hs'.sink fun n hn => hp n (List.mem_reverse.mpr hn)]
      · cases h

end Registry

end Atmark
