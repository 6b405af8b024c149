import Atmark.Directive.Content
import Atmark.Parse.Engine
import Atmark.Proofs.Node.Unplaced
import Atmark.Proofs.Parse.Opening
import Atmark.Proofs.Token.Alongside

/-! Where two sources meet. One run reads tokens up to their end; another reads the same tokens somewhere else,
and then goes on with others (`Seam`). White space with a line break comes before those, so nothing that the
first run has read to its end goes on into them: what the first run gets over, the second one gets over in the
same way (`Seam.Follows`), unless the bound on its steps is too small. -/
namespace Atmark
open Node ParseM

/-- What a file may declare only once. -/
inductive Single where
  | model
  | name
  | parameter (name : Text)

/-- The declaration has been made. -/
def Declarations.Made (d : Declarations) : Single → Prop
  | .model => d.model.isSome = true
  | .name => d.namePos.isSome = true
  | .parameter name => (d.parameters.find? (·.1 = name)).isSome = true

/-- The nodes under each key, without their positions. -/
def Cache.shown (c : Cache) (key : Text) : Option (List Node) := (c.get? key).map (placelessAll ·.nodes)

theorem Stream.skip_succ (s : Stream) (n : Nat) : s.skip (n + 1) = (s.skip 1).skip n := by
  cases h : s.rest with
  | nil =>
    have hnil (m : Nat) : s.skip m = s := by cases m <;> simp [skip, h]
    rw [hnil, hnil, hnil]
  | cons => simp [skip, h]

/-- The meeting of the tokens of one run with those that only another run reads after them. -/
structure Seam where
  /-- The tokens that only the second run reads, without their positions. -/
  after : List Token
  parted : Token.Parted after
  /-- They do not go on with a condition. -/
  noElse : Directive.elseAhead after = none
  /-- The declarations that only the first run has made. -/
  spare : Single → Prop
  /-- What lies in each run under the nodes that both write. -/
  floor : List Node × List Node

namespace Seam

/-- Both runs read the same tokens, from the beginning of a file. -/
def whole : Seam := ⟨[], .nil, rfl, fun _ => False, ([], [])⟩

/-- A group ends in the same place in both runs. -/
def inner (P : Seam) : Seam := ⟨[], .nil, rfl, P.spare, P.floor⟩

/-- A region starts empty in both runs. -/
def afresh (P : Seam) : Seam := { P with floor := ([], []) }

/-- The regions hold the same nodes but for positions, each over its floor. -/
def Level (P : Seam) (ns ns' : List Node) : Prop :=
  ∃ top top', ns = top ++ P.floor.1 ∧ ns' = top' ++ P.floor.2 ∧ placelessAll top' = placelessAll top ∧
    (top = [] → P.floor = ([], []))

theorem level_afresh {P : Seam} {ns ns' : List Node} :
    P.afresh.Level ns ns' ↔ placelessAll ns' = placelessAll ns := by
  constructor
  · rintro ⟨top, top', rfl, rfl, h, -⟩
    simpa [afresh] using h
  · intro h
    exact ⟨ns, ns', by simp [afresh], by simp [afresh], h, fun _ => rfl⟩

/-- Both end with the same node. -/
theorem Level.head? {P : Seam} {ns ns' : List Node} (h : P.Level ns ns') :
    ns'.head?.map placeless = ns.head?.map placeless := by
  obtain ⟨top, top', rfl, rfl, hsame, hfloor⟩ := h
  cases top with
  | nil =>
    obtain rfl : top' = [] := by
      cases top' with
      | nil => rfl
      | cons => cases hsame
    simp [hfloor rfl]
  | cons n top =>
    cases top' with
    | nil => cases hsame
    | cons n' top' => exact congrArg some (List.cons.inj hsame).1

/-- The word `else` at the end of the first tokens would go on with those after them. -/
def ElseSplits (ts after : List Token) : Prop :=
  ts.getLast?.any (·.isNamed "else") = true ∧
    after.head?.any (fun t => t.isNamed "if" || t.isGroup .brace) = true

/-- The second run is where the first one is, with other tokens to come. -/
structure Alike (P : Seam) (s s' : State) : Prop where
  stream : Token.Alongside P.after s.stream.rest s'.stream.rest
  sink : P.Level s.sink s'.sink
  atStart : s'.atStart = s.atStart
  markup : s'.markup = s.markup
  unbroken : s.broken = false ∧ s'.broken = false
  trimLine : s'.trimLine = s.trimLine
  path : s'.path = s.path
  includers : s'.includers = s.includers
  budget : s.world.budget = none ∧ s'.world.budget = none
  cache : s'.world.cache.map Cache.shown = s.world.cache.map Cache.shown
  declared : ∀ x, s.declared.Made x ↔ s'.declared.Made x ∨ P.spare x
  placed : Token.AllPlaced s.stream.rest ∧ Token.AllPlaced s'.stream.rest
  /-- More tokens only come in markup. -/
  ends : P.after ≠ [] → s.markup = true ∧ ¬ElseSplits s.stream.rest P.after

/-- How the second run ends a step if the first one gets over it. -/
inductive Outcome (P : Seam) {α β : Type} (R : α → β → Prop) :
    EStateM.Result Error State α → EStateM.Result Error State β → Prop
  | ok {a : α} {b : β} {t t' : State} : R a b → P.Alike t t' → Outcome P R (.ok a t) (.ok b t')
  | error {e : Error} {t : State} {r : EStateM.Result Error State β} : Outcome P R (.error e t) r
  /-- The second run does not have steps enough. -/
  | short {r : EStateM.Result Error State α} {t' : State} : Outcome P R r (.error .exhausted t')

/-- From states that are alike the second run follows the first one. -/
def Follows (P : Seam) {α β : Type} (m : ParseM α) (m' : ParseM β) (R : α → β → Prop) : Prop :=
  ∀ s s', P.Alike s s' → P.Outcome R (m s) (m' s')

/-- From states that are alike, with these tokens still to be read, the steps end so. -/
def At (P : Seam) {α β : Type} (ts us : List Token) (m : ParseM α) (m' : ParseM β)
    (Φ : EStateM.Result Error State α → EStateM.Result Error State β → Prop) : Prop :=
  ∀ s s', P.Alike s s' → s.stream.rest = ts → s'.stream.rest = us → Φ (m s) (m' s')

/-- From such states the second run follows the first one. -/
abbrev From (P : Seam) {α β : Type} (ts us : List Token) (m : ParseM α) (m' : ParseM β) (R : α → β → Prop) : Prop :=
  P.At ts us m m' (P.Outcome R)

/-- Nothing is said of a first run that fails, nor of a second one that does not have steps enough. -/
structure Lax {α β : Type} (Φ : EStateM.Result Error State α → EStateM.Result Error State β → Prop) : Prop where
  error : ∀ e t r, Φ (.error e t) r
  short : ∀ r t, Φ r (.error .exhausted t)

variable {P : Seam} {α β γ δ : Type} {R : α → β → Prop} {Q : γ → δ → Prop} {ts us : List Token}
variable {Φ : EStateM.Result Error State γ → EStateM.Result Error State δ → Prop}

theorem Outcome.lax : Lax (P.Outcome Q) := ⟨fun _ _ _ => .error, fun _ _ => .short⟩

theorem Outcome.andThen (hΦ : Lax Φ) {s s' : State} {m : ParseM α} {m' : ParseM β} {f : α → ParseM γ}
    {f' : β → ParseM δ} (hm : P.Outcome R (m s) (m' s'))
    (hf : ∀ a b t t', m s = .ok a t → m' s' = .ok b t' → R a b → P.Alike t t' → Φ (f a t) (f' b t')) :
    Φ ((m >>= f) s) ((m' >>= f') s') := by
  simp only [Bind.bind, EStateM.bind]
  cases h : m s with
  | error e t => exact hΦ.error _ _ _
  | ok a t =>
    cases h' : m' s' with
    | ok b t' =>
      rw [h, h'] at hm
      cases hm with
      | ok hab ht => exact hf a b t t' h h' hab ht
    | error e t' =>
      rw [h, h'] at hm
      cases hm with
      | short => exact hΦ.short _ _

/-- A step may lead from one seam to another one: into a group and out of it. -/
theorem Outcome.bind {P' : Seam} {s s' : State} {m : ParseM α} {m' : ParseM β} {f : α → ParseM γ}
    {f' : β → ParseM δ} (hm : P'.Outcome R (m s) (m' s'))
    (hf : ∀ a b t t', m s = .ok a t → m' s' = .ok b t' → R a b → P'.Alike t t' → P.Outcome Q (f a t) (f' b t')) :
    P.Outcome Q ((m >>= f) s) ((m' >>= f') s') := hm.andThen Outcome.lax hf

theorem Outcome.get {s s' : State} {f : State → ParseM γ} {f' : State → ParseM δ}
    (h : P.Outcome Q (f s s) (f' s' s')) :
    P.Outcome Q ((MonadState.get >>= f) s) ((MonadState.get >>= f') s') := h

theorem Outcome.set {s s' x x' : State} {f : PUnit → ParseM γ} {f' : PUnit → ParseM δ}
    (h : P.Outcome Q (f ⟨⟩ x) (f' ⟨⟩ x')) :
    P.Outcome Q ((MonadStateOf.set x >>= f) s) ((MonadStateOf.set x' >>= f') s') := h

theorem Outcome.mono {r : EStateM.Result Error State α} {r' : EStateM.Result Error State β}
    {R' : α → β → Prop} (h : P.Outcome R r r') (hR : ∀ a b, R a b → R' a b) : P.Outcome R' r r' := by
  cases h with
  | ok hab ht => exact .ok (hR _ _ hab) ht
  | error => exact .error
  | short => exact .short

namespace Follows

theorem bind {m : ParseM α} {m' : ParseM β} {f : α → ParseM γ} {f' : β → ParseM δ} (hm : P.Follows m m' R)
    (hf : ∀ a b, R a b → P.Follows (f a) (f' b) Q) : P.Follows (m >>= f) (m' >>= f') Q :=
  fun s s' hs => (hm s s' hs).bind fun a b t t' _ _ hab => hf a b hab t t'

/-- After a step that returns the same in both runs. -/
theorem next {m m' : ParseM α} {f : α → ParseM γ} {f' : α → ParseM δ} (hm : P.Follows m m' fun a b => b = a)
    (hf : ∀ a, P.Follows (f a) (f' a) Q) : P.Follows (m >>= f) (m' >>= f') Q := by
  refine hm.bind fun a b hab => ?_
  rw [hab]
  exact hf a

theorem pure {a : α} {b : β} (h : R a b) : P.Follows (Pure.pure a) (Pure.pure b) R := fun _ _ hs => .ok h hs

theorem get : P.Follows MonadState.get MonadState.get P.Alike := fun _ _ hs => .ok hs hs

theorem set {x x' : State} (h : P.Alike x x') :
    P.Follows (MonadStateOf.set x) (MonadStateOf.set x') fun _ _ => True := fun _ _ _ => .ok trivial h

theorem modify {f f' : State → State} (h : ∀ s s', P.Alike s s' → P.Alike (f s) (f' s')) :
    P.Follows (modify f) (modify f') fun _ _ => True := fun s s' hs => .ok trivial (h s s' hs)

theorem start {m : ParseM α} {m' : ParseM β} (h : P.Follows m m' R) : P.From ts us m m' R :=
  fun s s' hs _ _ => h s s' hs

/-- What the first run never gets over. -/
theorem never {m : ParseM α} {m' : ParseM β} (h : ∀ s a t, ¬Returns m s a t) : P.Follows m m' R := by
  intro s s' _
  cases hm : m s with
  | ok a t => exact (h s a t hm).elim
  | error e t => exact .error

theorem fail {pos : Option Position} {cause : Fault} {m' : ParseM β} :
    P.Follows (ParseM.fail pos cause : ParseM α) m' R := .never fun _ _ _ h => h.fail

theorem unexpected {t : Token} {c : Context} {m' : ParseM β} :
    P.Follows (ParseM.unexpected t c : ParseM α) m' R := .never fun _ _ _ h => h.unexpected

theorem throw {e : Error} {m' : ParseM β} : P.Follows (MonadExcept.throw e : ParseM α) m' R :=
  .never fun _ _ _ h => h.throw

/-- The second run may not have steps enough. -/
theorem exhausted {m : ParseM α} : P.Follows m (MonadExcept.throw .exhausted : ParseM β) R :=
  fun _ _ _ => .short

/-- The second run passes a check that the first one passes. -/
theorem guard {c c' : Prop} [Decidable c] [Decidable c'] {pos pos' : Option Position} {cause cause' : Fault}
    {m : Unit → ParseM α} {m' : Unit → ParseM β} (hc : c' → c) (h : ¬c → P.Follows (m ()) (m' ()) R) :
    P.Follows (if c then ParseM.fail pos cause >>= m else m ())
      (if c' then ParseM.fail pos' cause' >>= m' else m' ()) R := by
  split
  · exact .never fun _ _ _ h => by
      obtain ⟨_, _, h, -⟩ := h.bind
      exact h.fail
  · rename_i hn
    rw [if_neg fun h => hn (hc h)]
    exact h hn

/-- Where it is known what is still to be read. -/
theorem ofRest {m : ParseM α} {m' : ParseM β}
    (h : ∀ ts us, Token.Alongside P.after ts us → Token.AllPlaced ts → Token.AllPlaced us → P.From ts us m m' R) :
    P.Follows m m' R :=
  fun s s' hs => h _ _ hs.stream hs.placed.1 hs.placed.2 s s' hs rfl rfl

end Follows

/-! ## Steps -/

theorem Alike.atStatementStart {s s' : State} (h : P.Alike s s') : s'.atStatementStart = s.atStatementStart :=
  State.atStatementStart_congr h.sink.head? h.atStart

theorem Alike.endsWithWord {s s' : State} (h : P.Alike s s') :
    s'.sink.head?.any Node.endsWithWord = s.sink.head?.any Node.endsWithWord := State.endsWithWord_congr h.sink.head?

/-- What is written is written over the floor. -/
theorem Level.foldl_push {s s' : State} (h : P.Level s.sink s'.sink) (ht : s'.trimLine = s.trimLine)
    {ns ns' : List Node} (hns : placelessAll ns' = placelessAll ns) :
    P.Level (ns.foldl State.push s).sink (ns'.foldl State.push s').sink ∧
      (ns'.foldl State.push s').trimLine = (ns.foldl State.push s).trimLine := by
  obtain ⟨top, top', hs, hs', hsame, hfloor⟩ := h
  have hempty {ns ns' : List Node} (h : placelessAll ns' = placelessAll ns) : ns' = [] ↔ ns = [] := by
    rw [← List.isEmpty_iff, ← List.isEmpty_iff, isEmpty_congr h]
  obtain ⟨more, hmore, hpushed, hend⟩ := State.foldl_push_over hs (fun h => by rw [hfloor h]) ns
  obtain ⟨more', hmore', hpushed', hend'⟩ :=
    State.foldl_push_over hs' (fun h => by rw [hfloor ((hempty hsame).mp h)]) ns'
  have htop : placelessAll ({ s' with sink := top' } : State).sink = placelessAll ({ s with sink := top } : State).sink :=
    hsame
  obtain ⟨hsink, htrim⟩ := State.foldl_push_placeless htop ht hns
  rw [hpushed, hpushed'] at hsink htrim
  exact ⟨⟨more, more', hmore, hmore', hsink, fun h => Prod.ext (hend h) (hend' ((hempty hsink).mpr h))⟩, htrim⟩

theorem Alike.foldl_push {s s' : State} (h : P.Alike s s') {ns ns' : List Node}
    (hns : placelessAll ns' = placelessAll ns) : P.Alike (ns.foldl State.push s) (ns'.foldl State.push s') := by
  obtain ⟨hsink, htrim⟩ := h.sink.foldl_push h.trimLine hns
  obtain ⟨sink, trimLine, hf⟩ := s.foldl_push_frame ns
  obtain ⟨sink', trimLine', hf'⟩ := s'.foldl_push_frame ns'
  rw [hf, hf'] at hsink htrim ⊢
  exact { h with sink := hsink, trimLine := htrim }

theorem Alike.skip {s s' : State} (h : P.Alike s s') {n : Nat} (hn : n ≤ s.stream.rest.length) :
    P.Alike { s with stream := s.stream.skip n } { s' with stream := s'.stream.skip n } := by
  refine { h with stream := ?_, placed := ?_, ends := fun hne => ⟨(h.ends hne).1, fun hsplits => ?_⟩ }
  · simpa using h.stream.drop hn
  · simpa using ⟨h.placed.1.drop n, h.placed.2.drop n⟩
  · refine (h.ends hne).2 ⟨?_, hsplits.2⟩
    have hlast := hsplits.1
    simp only [Stream.rest_skip, List.getLast?_drop] at hlast
    split at hlast
    · cases hlast
    · exact hlast

theorem rest_follows : P.Follows rest rest (Token.Alongside P.after) := fun _ _ hs => .ok hs.stream hs

theorem trimLine_follows : P.Follows trimLine trimLine fun _ _ => True :=
  .modify fun _ _ hs => { hs with trimLine := rfl }

theorem note_follows (message message' : String) (fields fields' : List (String × Text)) :
    P.Follows (note message fields) (note message' fields') fun _ _ => True :=
  .modify fun _ _ hs => { hs with budget := hs.budget, cache := hs.cache }

theorem checkStop_follows : P.Follows checkStop checkStop fun _ _ => True := by
  refine Follows.get.bind fun s s' hs => ?_
  rw [hs.budget.1, hs.budget.2]
  exact .pure trivial

theorem emit_follows {ns ns' : List Node} (h : placelessAll ns' = placelessAll ns) :
    P.Follows (emit ns) (emit ns') fun _ _ => True := .modify fun _ _ hs => hs.foldl_push h

theorem emitText_follows (t : Text) (pos pos' : Option Position) :
    P.Follows (emitText t pos) (emitText t pos') fun _ _ => True :=
  .modify fun _ _ hs => hs.foldl_push (show placelessAll [.text pos' t] = placelessAll [.text pos t] from rfl)

namespace At

theorem bind {m : ParseM α} {m' : ParseM β} {f : α → ParseM γ} {f' : β → ParseM δ} (hm : P.From ts us m m' R)
    (hf : ∀ a b, R a b → P.Follows (f a) (f' b) Q) : P.From ts us (m >>= f) (m' >>= f') Q :=
  fun s s' hs hts hus => (hm s s' hs hts hus).bind fun a b t t' _ _ hab => hf a b hab t t'

theorem mono {m : ParseM α} {m' : ParseM β} {R' : α → β → Prop} (h : P.From ts us m m' R)
    (hR : ∀ a b, R a b → R' a b) : P.From ts us m m' R' := fun s s' hs hts hus => (h s s' hs hts hus).mono hR

/-- After a step in which the second run follows the first one. -/
theorem andThen (hΦ : Lax Φ) {m : ParseM α} {m' : ParseM β} {f : α → ParseM γ} {f' : β → ParseM δ}
    (hm : P.From ts us m m' R) (hf : ∀ a b, R a b → ∀ s s', P.Alike s s' → Φ (f a s) (f' b s')) :
    P.At ts us (m >>= f) (m' >>= f') Φ :=
  fun s s' hs hts hus => (hm s s' hs hts hus).andThen hΦ fun a b t t' _ _ hab => hf a b hab t t'

theorem rest {f : List Token → ParseM γ} {f' : List Token → ParseM δ} (h : P.At ts us (f ts) (f' us) Φ) :
    P.At ts us (rest >>= f) (ParseM.rest >>= f') Φ := by
  rintro s s' hs rfl rfl
  exact h s s' hs rfl rfl

theorem peek {f : Option Token → ParseM γ} {f' : Option Token → ParseM δ}
    (h : P.At ts us (f ts.head?) (f' us.head?) Φ) : P.At ts us (peek >>= f) (ParseM.peek >>= f') Φ := by
  rintro s s' hs rfl rfl
  exact h s s' hs rfl rfl

theorem skip {n : Nat} {f : Unit → ParseM γ} {f' : Unit → ParseM δ} (hn : n ≤ ts.length)
    (h : P.At (ts.drop n) (us.drop n) (f ()) (f' ()) Φ) :
    P.At ts us (skip n >>= f) (ParseM.skip n >>= f') Φ := by
  rintro s s' hs rfl rfl
  exact h _ _ (hs.skip hn) (Stream.rest_skip _ _) (Stream.rest_skip _ _)

/-- It does not matter which tokens are passed over. -/
theorem skipped {n : Nat} {f : Unit → ParseM γ} {f' : Unit → ParseM δ} {s s' : State}
    (h : P.At (s.stream.rest.drop n) (s'.stream.rest.drop n) (f ()) (f' ()) Φ)
    (hs : P.Alike { s with stream := s.stream.skip n } { s' with stream := s'.stream.skip n }) :
    Φ ((ParseM.skip n >>= f) s) ((ParseM.skip n >>= f') s') :=
  h _ _ hs (Stream.rest_skip _ _) (Stream.rest_skip _ _)

/-- After a step that leaves the tokens alone. -/
theorem modify {g g' : State → State} {f : Unit → ParseM γ} {f' : Unit → ParseM δ}
    (hg : ∀ s s', P.Alike s s' → P.Alike (g s) (g' s')) (hkeep : ∀ s, (g s).stream = s.stream)
    (hkeep' : ∀ s, (g' s).stream = s.stream) (h : P.At ts us (f ()) (f' ()) Φ) :
    P.At ts us (modify g >>= f) (modify g' >>= f') Φ := by
  rintro s s' hs rfl rfl
  exact h _ _ (hg s s' hs) (by rw [hkeep]) (by rw [hkeep'])

theorem keep {m : ParseM α} {m' : ParseM β} {f : α → ParseM γ} {f' : β → ParseM δ} (hm : P.From ts us m m' R)
    (hkeep : ∀ s a u, Returns m s a u → u.stream = s.stream)
    (hkeep' : ∀ s a u, Returns m' s a u → u.stream = s.stream)
    (hf : ∀ a b, R a b → P.From ts us (f a) (f' b) Q) : P.From ts us (m >>= f) (m' >>= f') Q := by
  rintro s s' hs rfl rfl
  refine (hm s s' hs rfl rfl).bind fun a b u u' h h' hab hu => hf a b hab u u' hu ?_ ?_
  · rw [hkeep s a u h]
  · rw [hkeep' s' b u' h']

theorem setLast {pos pos' : Option Position} {f : Unit → ParseM γ} {f' : Unit → ParseM δ}
    (h : P.At ts us (f ()) (f' ()) Φ) :
    P.At ts us (setLast pos >>= f) (ParseM.setLast pos' >>= f') Φ :=
  modify (fun _ _ hs => { hs with }) (fun _ => rfl) (fun _ => rfl) h

theorem emitText {t : Text} {pos pos' : Option Position} {f : Unit → ParseM γ} {f' : Unit → ParseM δ}
    (h : P.At ts us (f ()) (f' ()) Φ) :
    P.At ts us (emitText t pos >>= f) (ParseM.emitText t pos' >>= f') Φ := by
  refine modify (fun _ _ hs => ?_) (fun s => ?_) (fun s => ?_) h
  · exact hs.foldl_push (show placelessAll [.text pos' t] = placelessAll [.text pos t] from rfl)
  · obtain ⟨_, _, hf⟩ := s.pushText_frame pos t
    rw [hf]
  · obtain ⟨_, _, hf⟩ := s.pushText_frame pos' t
    rw [hf]

theorem checkStop {f : Unit → ParseM γ} {f' : Unit → ParseM δ} (h : P.At ts us (f ()) (f' ()) Φ) :
    P.At ts us (checkStop >>= f) (ParseM.checkStop >>= f') Φ := by
  intro s s' hs hts hus
  rw [(checkStop_unlimited hs.budget.1).bind_eq, (checkStop_unlimited hs.budget.2).bind_eq]
  exact h s s' hs hts hus

theorem get {f : State → ParseM γ} {f' : State → ParseM δ}
    (h : ∀ s s', P.Alike s s' → s.stream.rest = ts → s'.stream.rest = us → P.At ts us (f s) (f' s') Φ) :
    P.At ts us (MonadState.get >>= f) (MonadState.get >>= f') Φ :=
  fun s s' hs hts hus => h s s' hs hts hus s s' hs hts hus

/-- What the first run never gets over at these tokens. -/
theorem never {m : ParseM α} {m' : ParseM β} (h : ∀ s a t, s.stream.rest = ts → ¬Returns m s a t) :
    P.From ts us m m' R := by
  intro s s' _ hts _
  cases hm : m s with
  | ok a t => exact (h s a t hts hm).elim
  | error e t => exact .error

/-- The second run passes a check that the first one passes. -/
theorem guard {c c' : Prop} [Decidable c] [Decidable c'] {pos pos' : Option Position} {cause cause' : Fault}
    {m : Unit → ParseM α} {m' : Unit → ParseM β} (hc : c' → c) (h : ¬c → P.From ts us (m ()) (m' ()) R) :
    P.From ts us (if c then ParseM.fail pos cause >>= m else m ())
      (if c' then ParseM.fail pos' cause' >>= m' else m' ()) R := by
  intro s s' hs hts hus
  by_cases hn : c
  · rw [if_pos hn]
    exact .error
  · rw [if_neg hn, if_neg fun h => hn (hc h)]
    exact h hn s s' hs hts hus

end At

/-! ## Closing tags, comments and braces -/

/-- The tags are the same but for positions. -/
def SameClosing (c c' : ClosingTag) : Prop :=
  c'.name = c.name ∧ Token.unplacedAll c'.tokens = Token.unplacedAll c.tokens

/-- What comes after `</`. -/
theorem closingTagRest_follows (pos pos' : Option Position) : P.Follows (do
      let tokens := tagNameTokens (← rest)
      skip tokens.length
      match ← peek with
      | none => fail pos (.openClosingTag (tagName tokens))
      | some gt =>
        skip 1
        if gt.isPunct '>' then return (⟨tagName tokens, tokens, pos⟩ : ClosingTag)
        else unexpected gt (.inClosingTag (tagName tokens))) (do
      let tokens := tagNameTokens (← rest)
      skip tokens.length
      match ← peek with
      | none => fail pos' (.openClosingTag (tagName tokens))
      | some gt =>
        skip 1
        if gt.isPunct '>' then return (⟨tagName tokens, tokens, pos'⟩ : ClosingTag)
        else unexpected gt (.inClosingTag (tagName tokens))) SameClosing := by
  refine .ofRest fun ts us h _ _ => .rest ?_
  cases ts with
  | nil =>
    refine .never fun s a t hs hret => ?_
    obtain ⟨_, s₁, hskip, hret⟩ := hret.bind
    obtain ⟨next, s₂, hpeek, hret⟩ := hret.bind
    obtain ⟨rfl, rfl⟩ := hpeek.peek
    rw [hskip.modify] at hret
    simp only [Stream.rest_skip, hs, tagNameTokens, List.drop_nil, List.head?_nil] at hret
    exact hret.fail
  | cons t ts =>
    have hname := h.tagNameTokens P.parted
    have hlength := (tagNameTokens_isPrefix (t :: ts)).length_le
    dsimp only
    rw [Token.length_congr hname, Token.tagName_congr hname]
    refine .skip hlength (.peek ?_)
    have hrest := h.drop hlength
    cases hts : (t :: ts).drop (tagNameTokens (t :: ts)).length with
    | nil => exact Follows.fail.start
    | cons gt after =>
      rw [hts] at hrest
      obtain ⟨gt', after', hus, hgt, -⟩ := hrest.cons
      rw [hus]
      simp only [List.head?_cons]
      rw [hgt.isPunct]
      refine .skip (by simp) ?_
      split
      · exact Follows.start (.pure ⟨rfl, hname⟩)
      · exact Follows.unexpected.start

/-- It does not matter how the tag begins. -/
theorem closingTag_outcome {s s' : State} (hs : P.Alike { s with stream := s.stream.skip 2 }
    { s' with stream := s'.stream.skip 2 }) : P.Outcome SameClosing (closingTag s) (closingTag s') :=
  closingTagRest_follows _ _ _ _ hs

theorem closingTag_from {t₁ t₂ : Token} {us : List Token} : P.From (t₁ :: t₂ :: ts) us closingTag closingTag SameClosing :=
  fun _ _ hs hts _ => closingTag_outcome (hs.skip (by simp [hts]))

/-- The rest of a comment, and how many tokens it is. -/
def commentText : List Token → Option (Text × Nat)
  | [] => none
  | tok :: ts =>
    if startsWithMarks ['-', '-', '>'] (tok :: ts) then some (tok.space ++ utf8 "-->", 3)
    else (commentText ts).map fun (body, n) => (Token.sourceWithSpace [tok] ++ body, n + 1)

theorem commentText_along (h : Token.Alongside P.after ts us) {body : Text} {n : Nat}
    (hbody : commentText ts = some (body, n)) : commentText us = some (body, n) ∧ n ≤ ts.length := by
  induction ts generalizing us body n with
  | nil => cases hbody
  | cons tok ts ih =>
    have hmarks := h.startsWithMarks P.parted ['-', '-', '>']
    obtain ⟨u, us, rfl, hu, hus⟩ := h.cons
    rw [commentText] at hbody ⊢
    rw [hmarks, hu.space, Token.sourceWithSpace_congr hu.single]
    split
    · rename_i hstarts
      rw [if_pos hstarts] at hbody
      cases hbody
      exact ⟨rfl, Token.length_of_startsWithMarks hstarts⟩
    · rename_i hno
      rw [if_neg hno] at hbody
      obtain ⟨⟨rest, k⟩, hrest, he⟩ := Option.map_eq_some_iff.mp hbody
      cases he
      obtain ⟨hus, hk⟩ := ih hus hrest
      exact ⟨by rw [hus]; rfl, Nat.succ_le_succ hk⟩

/-- A comment is read whatever comes before it. -/
theorem commentFrom_eq (pos : Option Position) (ts : List Token) {s : State} (hb : s.world.budget = none) :
    (commentText ts = none ∧ ∃ e u, commentFrom pos ts s = .error e u) ∨
      ∃ body n, commentText ts = some (body, n) ∧
        commentFrom pos ts s = .ok body { s with stream := s.stream.skip n } := by
  induction ts generalizing s with
  | nil =>
    rw [commentFrom, (checkStop_unlimited hb).bind_eq]
    exact .inl ⟨rfl, _, _, rfl⟩
  | cons tok ts ih =>
    rw [commentFrom, commentText, (checkStop_unlimited hb).bind_eq]
    split
    · exact .inr ⟨_, _, rfl, rfl⟩
    · rw [skip_bind]
      simp only [Bind.bind, EStateM.bind]
      rcases ih (s := { s with stream := s.stream.skip 1 }) hb with ⟨hnone, e, u, hread⟩ | ⟨body, n, hsome, hread⟩
      · rw [hread, hnone]
        exact .inl ⟨rfl, _, _, rfl⟩
      · rw [hread, hsome]
        refine .inr ⟨_, _, rfl, ?_⟩
        rw [Stream.skip_succ _ n]
        rfl

/-- A group of the first run and the same group in the second one. -/
structure Groups (f : Frame) (cs : List Token) (g : Frame) (ds : List Token) : Prop where
  frame : ∃ pos, g = { f with pos }
  same : Token.unplacedAll ds = Token.unplacedAll cs
  placed : Token.AllPlaced cs ∧ Token.AllPlaced ds

theorem Groups.ofSame {f g : Frame} {cs ds : List Token} (h : Token.Same (.group f cs) (.group g ds))
    (hcs : Token.AllPlaced cs) (hds : Token.AllPlaced ds) : Groups f cs g ds := by
  obtain ⟨pos, ds', he, hsame⟩ := h.group
  obtain ⟨rfl, rfl⟩ := Token.group.inj he
  exact ⟨⟨pos, rfl⟩, hsame, hcs, hds⟩

theorem untilBrace_from (h : Token.Alongside P.after ts us) (hts : Token.AllPlaced ts) (hus : Token.AllPlaced us)
    (pos pos' : Option Position) (what what' : String) :
    P.From ts us (untilBrace pos what ts) (untilBrace pos' what' us) fun a b =>
      Token.unplacedAll b.1 = Token.unplacedAll a.1 ∧ Groups a.2.1 a.2.2 b.2.1 b.2.2 := by
  induction ts generalizing us with
  | nil =>
    refine .never fun s a t _ hret => ?_
    obtain ⟨_, _, -, hret⟩ := hret.bind
    exact hret.fail
  | cons tok ts ih =>
    obtain ⟨u, us, rfl, hu, hrest⟩ := h.cons
    have hmore : P.From ts us (untilBrace pos what ts >>= fun found => pure (tok :: found.1, found.2))
        (untilBrace pos' what' us >>= fun found => pure (u :: found.1, found.2)) fun a b =>
          Token.unplacedAll b.1 = Token.unplacedAll a.1 ∧ Groups a.2.1 a.2.2 b.2.1 b.2.2 := by
      refine (ih hrest (hts.drop 1) (hus.drop 1)).bind fun a b hab => .pure ⟨?_, hab.2⟩
      rw [Token.unplacedAll, Token.unplacedAll, hab.1, hu]
    refine .checkStop (.skip (by simp) (.setLast ?_))
    simp only [List.drop_succ_cons, List.drop_zero]
    cases hu.moved with
    | group f gpos hds =>
      dsimp only
      split
      · exact Follows.start (.pure ⟨rfl, ⟨gpos, rfl⟩, hds, hts.group (.head _), hus.group (.head _)⟩)
      · exact hmore
    | ident | literal | punct => exact hmore

/-! ## Tools -/

/-- How the second run goes on with the stream if the first one reads it to a closing tag or to its end. At the
end of the first tokens the second run goes on with a loop of its own. -/
inductive Goes (P : Seam) (loop : Nat → ParseM (Option ClosingTag)) :
    EStateM.Result Error State (Option ClosingTag) → EStateM.Result Error State (Option ClosingTag) → Prop
  | closing {c c' : ClosingTag} {t t' : State} :
      SameClosing c c' → P.Alike t t' → Goes P loop (.ok (some c) t) (.ok (some c') t')
  | done {t t' : State} : P.after = [] → P.Alike t t' → Goes P loop (.ok none t) (.ok none t')
  | more {n : Nat} {t t' : State} :
      P.after ≠ [] → t.stream.rest = [] → P.Alike t t' → Goes P loop (.ok none t) (loop n t')
  | error {e : Error} {t : State} {r : EStateM.Result Error State (Option ClosingTag)} :
      Goes P loop (.error e t) r
  | short {r : EStateM.Result Error State (Option ClosingTag)} {t' : State} :
      Goes P loop r (.error .exhausted t')

/-- The fragments have the same nodes. -/
def SameFragment (f f' : Fragment) : Prop := placelessAll f'.nodes = placelessAll f.nodes

/-- The nodes are the same but for positions. -/
def SameNodes (ns ns' : List Node) : Prop := placelessAll ns' = placelessAll ns

/-- What the second run uses follows what the first one uses. -/
structure Uses (loop : Nat → ParseM (Option ClosingTag)) (t t' : Tools) : Prop where
  settings : t'.settings = t.settings
  resume : ∀ (P : Seam) (s s' : State), P.Alike s s' → P.Goes loop (t.resume s) (t'.resume s')
  embed : ∀ (P : Seam) (file src : Text), P.Follows (t.embed file src) (t'.embed file src) SameFragment

variable {loop : Nat → ParseM (Option ClosingTag)} {t t' : Tools} (ht : Uses loop t t')

/-- Whether the closings are the same, if there are any. -/
def SameEnd : Option ClosingTag → Option ClosingTag → Prop
  | some c, some c' => SameClosing c c'
  | none, none => True
  | _, _ => False

/-- The second run follows the first one if that finds a closing tag. -/
def Found (P : Seam) (r r' : EStateM.Result Error State (Option ClosingTag)) : Prop :=
  (∃ s, r = .ok none s) ∨ P.Outcome SameEnd r r'

theorem Found.lax : Lax P.Found := ⟨fun _ _ _ => .inr .error, fun _ _ => .inr .short⟩

theorem Goes.lax : Lax (P.Goes loop) := ⟨fun _ _ _ => .error, fun _ _ => .short⟩

theorem Goes.found {r r' : EStateM.Result Error State (Option ClosingTag)} (h : P.Goes loop r r') :
    P.Found r r' := by
  cases h with
  | closing hc hs => exact .inr (.ok hc hs)
  | done | more => exact .inl ⟨_, rfl⟩
  | error => exact .inr .error
  | short => exact .inr .short

theorem Goes.ends {r r' : EStateM.Result Error State (Option ClosingTag)} (hP : P.after = [])
    (h : P.Goes loop r r') : P.Outcome SameEnd r r' := by
  cases h with
  | closing hc hs => exact .ok hc hs
  | done _ hs => exact .ok trivial hs
  | more hne => exact (hne hP).elim
  | error => exact .error
  | short => exact .short

include ht

theorem parse_goes {s s' : State} (hs : P.Alike s s') : P.Goes loop (t.parse s) (t'.parse s') := by
  have hparse {t : Tools} {s : State} (hb : s.world.budget = none) : t.parse s = t.resume s := by
    rw [Tools.parse, (checkStop_unlimited hb).bind_eq]
  rw [hparse hs.budget.1, hparse hs.budget.2]
  exact ht.resume P s s' hs

/-- A group is read to its end in both runs. -/
theorem parseInner_follows (hP : P.after = []) : P.Follows t.parse t'.parse SameEnd :=
  fun _ _ hs => (parse_goes ht hs).ends hP

/-- A region starts empty in both runs, and the outer ones are taken up as they were. -/
theorem region_follows {f g : Frame} {cs ds : List Token} (h : Groups f cs g ds) (markup : Bool) :
    P.Follows (t.region f cs markup) (t'.region g ds markup) SameNodes := by
  obtain ⟨⟨gpos, rfl⟩, hsame, hplaced⟩ := h
  intro outer outer' ho
  have hinner : P.inner.afresh.Alike
      { outer with stream := .ofGroup f cs, sink := [], markup, atStart := f.delim.holdsStatements }
      { outer' with
        stream := .ofGroup { f with pos := gpos } ds, sink := [], markup, atStart := f.delim.holdsStatements } :=
    { ho with
      stream := .of_eq hsame, sink := level_afresh.mpr rfl, markup := rfl, atStart := rfl, placed := hplaced
      ends := fun hne => (hne rfl).elim }
  refine .get (.set ((parseInner_follows ht rfl _ _ hinner).bind fun closing closing' inner inner' _ _ hc hi => ?_))
  have houter : P.Alike
      { inner with
        stream := outer.stream, sink := outer.sink, markup := outer.markup, atStart := outer.atStart }
      { inner' with
        stream := outer'.stream, sink := outer'.sink, markup := outer'.markup, atStart := outer'.atStart } :=
    { hi with
      stream := ho.stream, sink := ho.sink, markup := ho.markup, atStart := ho.atStart, placed := ho.placed
      ends := ho.ends }
  refine .get (.set ?_)
  cases closing with
  | some c => exact .error
  | none =>
    cases closing' with
    | some c => exact hc.elim
    | none =>
      refine .ok ?_ houter
      rw [SameNodes, placelessAll_reverse, placelessAll_reverse, level_afresh.mp hi.sink]

/-- What comes between the delimiters of a group in markup, and the closing delimiter. -/
theorem groupRest_follows {f g : Frame} {cs ds : List Token} (h : Groups f cs g ds) :
    P.Follows (do
      let outer ← get
      set { outer with stream := .ofGroup f cs }
      let closing ← t.parse
      modify fun s => { s with stream := outer.stream, markup := outer.markup }
      match closing with
      | some c => fail c.pos (.strayClosingTag c.name)
      | none => emitText (f.closeSpace ++ f.delim.closing) f.pos) (do
      let outer ← get
      set { outer with stream := .ofGroup g ds }
      let closing ← t'.parse
      modify fun s => { s with stream := outer.stream, markup := outer.markup }
      match closing with
      | some c => fail c.pos (.strayClosingTag c.name)
      | none => emitText (g.closeSpace ++ g.delim.closing) g.pos) fun _ _ => True := by
  obtain ⟨⟨gpos, rfl⟩, hsame, hplaced⟩ := h
  intro outer outer' ho
  have hinner : P.inner.Alike { outer with stream := .ofGroup f cs }
      { outer' with stream := .ofGroup { f with pos := gpos } ds } :=
    { ho with stream := .of_eq hsame, placed := hplaced, ends := fun hne => (hne rfl).elim }
  refine .get (.set ((parseInner_follows ht rfl _ _ hinner).bind fun closing closing' inner inner' _ _ hc hi => ?_))
  have houter : P.Alike { inner with stream := outer.stream, markup := outer.markup }
      { inner' with stream := outer'.stream, markup := outer'.markup } :=
    { hi with stream := ho.stream, markup := ho.markup, placed := ho.placed, ends := ho.ends }
  cases closing with
  | some c => exact .error
  | none =>
    cases closing' with
    | some c => exact hc.elim
    | none => exact emitText_follows _ _ _ _ _ houter

theorem group_follows {f g : Frame} {cs ds : List Token} (h : Groups f cs g ds) :
    P.Follows (t.group f cs) (t'.group g ds) fun _ _ => True := by
  refine Follows.get.bind fun s s' hs => ?_
  rw [hs.markup]
  have hrest := groupRest_follows (P := P) ht h
  have hregion := region_follows (P := P) ht h false
  obtain ⟨⟨gpos, rfl⟩, -, -⟩ := h
  split
  · exact (emitText_follows _ _ _).bind fun _ _ _ => hrest
  · refine hregion.bind fun ns ns' hns => emit_follows ?_
    simp only [placelessAll, placeless, show placelessAll ns' = placelessAll ns from hns]

theorem code_from (hP : P.after = []) {p : Punct} {pos : Option Position}
    (h : Token.Alongside P.after ts us) (hts : Token.AllPlaced ts) (hus : Token.AllPlaced us) :
    P.From (.punct p :: ts) (.punct { p with pos } :: us) (t.code p) (t'.code { p with pos }) fun _ _ => True := by
  have hpunct : P.Follows (emit [.punct p]) (emit [.punct { p with pos }]) fun _ _ => True := emit_follows rfl
  rw [hP] at h
  unfold Tools.code
  refine .skip (by simp) (.rest ?_)
  simp only [List.drop_succ_cons, List.drop_zero]
  split
  · rename_i d a type f cs rest
    obtain ⟨d', _, rfl, hd, h⟩ := h.cons
    obtain ⟨a', _, rfl, ha, h⟩ := h.cons
    obtain ⟨_, _, rfl, htype, h⟩ := h.cons
    obtain ⟨_, rest', rfl, hg, -⟩ := h.cons
    obtain ⟨tpos, rfl⟩ := htype.ident
    obtain ⟨gpos, ds, rfl, hds⟩ := hg.group
    have hgroups : Groups f cs { f with pos := gpos } ds :=
      ⟨⟨gpos, rfl⟩, hds, hts.group (f := f) (by simp), hus.group (f := { f with pos := gpos }) (by simp)⟩
    have hmarks : startsWithMarks ['-', '>'] [d', a'] = startsWithMarks ['-', '>'] [d, a] := by
      simp only [startsWithMarks, gluedMarks, hd.isPunct, ha.isPunct, ha.glued]
    simp only [hd.glued, hmarks]
    split
    · refine .skip (by simp) (Follows.start ?_)
      refine (region_follows ht hgroups false).bind fun ns ns' hns => emit_follows ?_
      simp only [placelessAll, placeless, show placelessAll ns' = placelessAll ns from hns]
    · exact hpunct.start
  · rename_i hno
    split
    · obtain ⟨d', _, rfl, -, h⟩ := Token.Alongside.cons (.of_eq h.eq.symm)
      obtain ⟨a', _, rfl, -, h⟩ := h.cons
      obtain ⟨_, _, rfl, htype, h⟩ := h.cons
      obtain ⟨_, _, rfl, hg, -⟩ := h.cons
      obtain ⟨_, rfl⟩ := htype.ident
      obtain ⟨_, _, rfl, -⟩ := hg.group
      exact (hno _ _ _ _ _ _ rfl).elim
    · exact hpunct.start

/-! ## Expressions -/

omit ht in
/-- An identifier without white space before it is next in both runs, or in none. -/
theorem At.ident {m m' : ParseM α} {f f' : Ident → List Token → ParseM α} {R : α → α → Prop}
    {as bs : List Token} (h : Token.Alongside P.after as bs) (hm : P.From ts us m m' R)
    (hf : ∀ n pos as' bs', as = .ident n :: as' → bs = .ident { n with pos } :: bs' →
      Token.Alongside P.after as' bs' → P.From ts us (f n as') (f' { n with pos } bs') R) :
    P.From ts us
      (match as with
        | .ident n :: as' => if n.space.isEmpty then f n as' else m
        | _ => m)
      (match bs with
        | .ident n :: bs' => if n.space.isEmpty then f' n bs' else m'
        | _ => m') R := by
  cases as with
  | nil =>
    dsimp only
    split
    · rename_i n bs'
      have hspace : n.space.isEmpty = false := h.not_glued P.parted
      simp only [hspace, Bool.false_eq_true, if_false]
      exact hm
    · exact hm
  | cons a as =>
    obtain ⟨b, bs, rfl, hb, hbs⟩ := h.cons
    cases hb.moved with
    | ident n pos =>
      dsimp only
      split
      · exact hf n pos as bs rfl rfl hbs
      · exact hm
    | literal | punct | group => exact hm

omit ht in
/-- The same after another token. -/
theorem At.identSecond {m m' : ParseM α} {f f' : Ident → List Token → ParseM α} {R : α → α → Prop} {a b : Token}
    {as bs : List Token} (h : Token.Alongside P.after as bs) (hm : P.From ts us m m' R)
    (hf : ∀ n pos as' bs', as = .ident n :: as' → bs = .ident { n with pos } :: bs' →
      Token.Alongside P.after as' bs' → P.From ts us (f n as') (f' { n with pos } bs') R) :
    P.From ts us
      (match a :: as with
        | _ :: .ident n :: as' => if n.space.isEmpty then f n as' else m
        | _ => m)
      (match b :: bs with
        | _ :: .ident n :: bs' => if n.space.isEmpty then f' n bs' else m'
        | _ => m') R := by
  have hmatch (c : Token) (cs : List Token) (f : Ident → List Token → ParseM α) (m : ParseM α) :
      (match c :: cs with
        | _ :: .ident n :: cs' => if n.space.isEmpty then f n cs' else m
        | _ => m) =
      (match cs with
        | .ident n :: cs' => if n.space.isEmpty then f n cs' else m
        | _ => m) := by
    rcases cs with _ | ⟨_ | _ | _ | _, _⟩ <;> rfl
  rw [hmatch, hmatch]
  exact .ident h hm hf

omit ht in
theorem followsPostfix_same {t u : Token} (h : Token.Same t u) :
    Tools.followsPostfix u = Tools.followsPostfix t := by
  unfold Tools.followsPostfix
  rw [h.glued, h.isPunct, h.isGroup, h.isGroup]

theorem selectors_from (h : Token.Alongside P.after ts us) (hts : Token.AllPlaced ts) (hus : Token.AllPlaced us) :
    P.From ts us (t.selectors ts) (t'.selectors us) SameNodes := by
  have hnone {ts us : List Token} : P.From ts us (pure []) (pure []) SameNodes := Follows.start (.pure rfl)
  fun_induction Tools.selectors t ts generalizing us with
  | case1 =>
    cases us with
    | nil => exact .checkStop hnone
    | cons u us =>
      rw [Tools.selectors.eq_def t' (u :: us)]
      refine .checkStop ?_
      simp only [h.not_glued P.parted, Bool.not_false, if_true]
      exact hnone
  | case2 tok ts ihDot ihPath ihGroup =>
    obtain ⟨u, us, rfl, hu, hrest⟩ := h.cons
    have hcolons := h.colons P.parted
    have hselect {p p' : Punct} (hp : (Node.punct p').placeless = (Node.punct p).placeless) (as bs : List Token)
        (n : Ident) (pos : Option Position) (k : Nat) (hk : k ≤ as.length) {as' bs' : List Token}
        (ih : P.From (as.drop k) (bs.drop k) (t.selectors as') (t'.selectors bs') SameNodes) :
        P.From as bs (do
          skip k
          return .punct p :: .ident n :: (← t.selectors as')) (do
          skip k
          return .punct p' :: .ident { n with pos } :: (← t'.selectors bs')) SameNodes := by
      refine .skip hk (ih.bind fun ns ns' hns => .pure ?_)
      rw [SameNodes] at hns
      rw [SameNodes, placelessAll, placelessAll, placelessAll, placelessAll, hns, hp]
      simp only [placeless]
    rw [Tools.selectors.eq_def t' (u :: us)]
    refine .checkStop ?_
    rw [hu.glued]
    split
    · exact hnone
    refine .setLast ?_
    cases hu.moved with
    | ident | literal => exact hnone
    | group f pos hds =>
      dsimp only
      split
      · exact hnone
      · have hgroups : Groups f _ { f with pos } _ := ⟨⟨pos, rfl⟩, hds, hts.group (.head _), hus.group (.head _)⟩
        refine .skip (by simp) (.keep (region_follows ht hgroups false).start (fun _ _ _ h => ?_) (fun _ _ _ h => ?_) ?_)
        · exact (Tools.region_idle _ _ _ _ _ _ h).1
        · exact (Tools.region_idle _ _ _ _ _ _ h).1
        intro cs cs' hcs
        refine (ihGroup hrest (hts.drop 1) (hus.drop 1)).bind fun ns ns' hns => .pure ?_
        rw [SameNodes] at hcs hns
        simp only [SameNodes, placelessAll, placeless, hcs, hns]
    | punct p pos =>
      dsimp only
      split
      · refine .ident hrest hnone ?_
        rintro n npos as' bs' rfl rfl hmore
        exact hselect (by simp only [placeless]) (_ :: _ :: as') (_ :: _ :: bs') n npos 2 (by simp)
          (ihDot hmore (hts.drop 2) (hus.drop 2))
      split
      · rw [hcolons]
        split
        · exact hnone
        · rename_i htwo
          cases ts with
          | nil =>
            simp only [colons, gluedColons, Nat.zero_add] at htwo
            split at htwo <;> simp at htwo
          | cons c ts =>
            obtain ⟨c', us, rfl, -, hmore⟩ := hrest.cons
            refine .identSecond hmore hnone ?_
            rintro n npos as' bs' rfl rfl hmore
            exact hselect (by simp only [placeless]) (_ :: _ :: _ :: as') (_ :: _ :: _ :: bs') n npos 3 (by simp)
              (ihPath hmore (hts.drop 3) (hus.drop 3))
      split
      · rw [hrest.any_head P.parted (fun _ _ => followsPostfix_same) fun t h => ?_]
        · split
          · exact Follows.fail.start
          · exact hnone
        · exact (Bool.and_eq_true_iff.mp h).1
      · exact hnone

theorem expressionFrom_follows (id : Ident) (pos : Option Position) :
    P.Follows (t.expressionFrom id) (t'.expressionFrom { id with pos }) SameNodes := by
  refine .ofRest fun ts us h hts hus => .rest ?_
  refine (selectors_from ht h hts hus).bind fun ns ns' hns => .pure ?_
  rw [SameNodes] at hns
  simp only [SameNodes, placelessAll, placeless, hns]

theorem expression_follows : P.Follows t.expression t'.expression SameNodes := by
  have halone {ts us : List Token} {p : Punct} {pos : Option Position} :
      P.From (.punct p :: ts) (.punct { p with pos } :: us) (do skip 1; return [.punct p])
        (do skip 1; return [.punct { p with pos }]) SameNodes :=
    .skip (by simp) (Follows.start (.pure (by simp only [SameNodes, placelessAll, placeless])))
  refine .ofRest fun ts us h _ _ => ?_
  refine .rest ?_
  cases ts with
  | nil =>
    refine .never fun s a u _ hret => ?_
    obtain ⟨_, _, -, hret⟩ := hret.bind
    exact hret.fail
  | cons tok ts =>
    obtain ⟨u, us, rfl, hu, hrest⟩ := h.cons
    cases hu.moved with
    | ident id pos => exact .skip (by simp) (expressionFrom_follows ht id pos).start
    | literal | group => exact Follows.unexpected.start
    | punct p pos =>
      dsimp only
      split
      · refine .ident hrest halone ?_
        rintro n npos as' bs' rfl rfl -
        refine .skip (by simp) (Follows.start ?_)
        refine (expressionFrom_follows ht n npos).bind fun ns ns' hns => .pure ?_
        rw [SameNodes] at hns
        simp only [SameNodes, placelessAll, placeless, hns]
      · exact Follows.unexpected.start

/-! ## Attributes -/

omit ht in
theorem SameNodes.isEmpty {ns ns' : List Node} (h : SameNodes ns ns') : ns'.isEmpty = ns.isEmpty :=
  isEmpty_congr h

theorem valueExpression_from (h : Token.Alongside P.after ts us) (hts : Token.AllPlaced ts)
    (hus : Token.AllPlaced us) {p : Punct} {pos : Option Position} (attr : Text) :
    P.From (.punct p :: ts) (.punct { p with pos } :: us) (t.valueExpression p attr)
      (t'.valueExpression { p with pos } attr) SameNodes := by
  refine .skip (by simp) (.peek ?_)
  simp only [List.drop_succ_cons, List.drop_zero]
  cases ts with
  | nil => exact Follows.fail.start
  | cons next ts =>
    obtain ⟨next', us, rfl, hnext, hrest⟩ := h.cons
    refine .guard (fun hc => by rwa [hnext.glued] at hc) fun _ => ?_
    cases hnext.moved with
    | ident => exact (expression_follows ht).start
    | literal l pos =>
      exact .skip (by simp) (Follows.start (.pure (by simp only [SameNodes, placelessAll, placeless])))
    | group f pos hds =>
      dsimp only
      split
      · have hgroups : Groups f _ { f with pos } _ := ⟨⟨pos, rfl⟩, hds, hts.group (.head _), hus.group (.head _)⟩
        refine .skip (by simp) (Follows.start ?_)
        refine (region_follows ht hgroups false).bind fun ns ns' hns => ?_
        exact .guard (fun hc => by rwa [hns.isEmpty] at hc) fun _ => .pure hns
      · exact Follows.unexpected.start
    | punct p pos =>
      dsimp only
      split
      · exact (expression_follows ht).start
      · exact Follows.unexpected.start

omit ht in
theorem unquotedValue_from {tok u : Token} (hu : Token.Same tok u) (h : Token.Alongside P.after ts us) :
    P.From (tok :: ts) (u :: us) (Tools.unquotedValue tok ts) (Tools.unquotedValue u us)
      fun v v' => v'.placeless = v.placeless := by
  have hrun : Token.unplacedAll (u :: us.takeWhile Token.continuesRun) =
      Token.unplacedAll (tok :: ts.takeWhile Token.continuesRun) := by
    rw [Token.unplacedAll, Token.unplacedAll, hu, h.takeWhile P.parted (fun _ _ hs => hs.continuesRun) fun t ht => ?_]
    exact (Bool.and_eq_true_iff.mp ht).1
  unfold Tools.unquotedValue
  dsimp only
  rw [Token.length_congr hrun]
  refine .skip ?_ (Follows.start (.pure ?_))
  · exact Nat.succ_le_succ (List.takeWhile_sublist _).length_le
  · simp only [StaticValue.placeless, hrun]

theorem attrValue_from {tok u : Token} (hu : Token.Same tok u) (h : Token.Alongside P.after ts us)
    (hts : Token.AllPlaced ts) (hus : Token.AllPlaced us) (tag attr : Text) :
    P.From (tok :: ts) (u :: us) (t.attrValue tag attr tok ts) (t'.attrValue tag attr u us)
      fun v v' => v'.placeless = v.placeless := by
  have hrun : P.From (tok :: ts) (u :: us)
      (do return (⟨tok.pos, ← Tools.unquotedValue tok ts, []⟩ : AttrValue))
      (do return (⟨u.pos, ← Tools.unquotedValue u us, []⟩ : AttrValue)) fun v v' => v'.placeless = v.placeless := by
    refine (unquotedValue_from hu h).bind fun v v' hv => .pure ?_
    simp only [AttrValue.placeless, hv]
  cases hu.moved with
  | ident id pos => exact hrun
  | group => exact Follows.unexpected.start
  | literal l pos =>
    refine .skip (by simp) (Follows.start ?_)
    split
    · exact .pure rfl
    · exact .pure rfl
  | punct p pos =>
    unfold Tools.attrValue
    dsimp only
    split
    · cases hvs : untilApostrophe ts with
      | none => exact Follows.fail.start
      | some found =>
        obtain ⟨vs, space⟩ := found
        obtain ⟨hlength, ws, hws, hsame⟩ := h.untilApostrophe hvs
        rw [hws]
        dsimp only
        rw [Token.length_congr hsame, Token.sourceWithSpace_congr hsame]
        exact .skip (by simpa using hlength) (Follows.start (.pure rfl))
    split
    · exact hrun
    split
    · refine (valueExpression_from ht h hts hus attr).bind fun ns ns' hns => ?_
      refine (note_follows _ _ _ _).bind fun _ _ _ => .pure ?_
      rw [SameNodes] at hns
      simp only [AttrValue.placeless, hns]
    split
    · exact Follows.fail.start
    · exact Follows.unexpected.start

omit ht in
/-- The attributes are being read at the same place of the tag. -/
def SameFocus : Tools.TagFocus → Tools.TagFocus → Prop
  | .name, .name => True
  | .value k _, .value k' _ => k'.placeless = k.placeless
  | _, _ => False

omit ht in
/-- The tags end in the same way. -/
def SameTagEnd (e e' : TagEnd) : Prop :=
  e'.slash.map (fun p => { p with pos := none }) = e.slash.map (fun p : Punct => { p with pos := none }) ∧
    e'.space = e.space

theorem attributesWithin_follows (lt lt' : Option Position) (tag : Text) (n n' : Nat) {r r' : TagReading}
    (hr : r'.placeless = r.placeless) {focus focus' : Tools.TagFocus} (hfocus : SameFocus focus focus') :
    P.Follows (t.attributesWithin lt tag n r focus) (t'.attributesWithin lt' tag n' r' focus')
      fun a b => b.1.placeless = a.1.placeless ∧ SameTagEnd a.2 b.2 := by
  induction n generalizing n' r r' focus focus' with
  | zero => exact .throw
  | succ n ih =>
    cases n' with
    | zero => exact .exhausted
    | succ n' =>
      refine checkStop_follows.bind fun _ _ _ => .ofRest fun ts us h hts hus => .rest ?_
      have hgo {k : Nat} (hk : k ≤ ts.length) {r r' : TagReading} (hr : r'.placeless = r.placeless)
          {focus focus' : Tools.TagFocus} (hfocus : SameFocus focus focus') :
          P.From ts us (do skip k; t.attributesWithin lt tag n r focus)
            (do skip k; t'.attributesWithin lt' tag n' r' focus')
            fun a b => b.1.placeless = a.1.placeless ∧ SameTagEnd a.2 b.2 :=
        .skip hk (ih n' hr hfocus).start
      have hend : r'.withoutValue.placeless = r.withoutValue.placeless := by
        rw [TagReading.withoutValue_placeless, hr, TagReading.withoutValue_placeless]
      have hadd {tok u : Token} (hu : Token.Same tok u) : (r'.addKey u).placeless = (r.addKey tok).placeless := by
        rw [TagReading.addKey_placeless, hr, hu, TagReading.addKey_placeless]
      have hstart {tok u : Token} (hu : Token.Same tok u) :
          (r'.startKey u).placeless = (r.startKey tok).placeless := by
        rw [TagReading.startKey_placeless, hr, hu, TagReading.startKey_placeless]
      have hkey : r'.key.map AttrKey.placeless = r.key.map AttrKey.placeless := congrArg TagReading.key hr
      cases ts with
      | nil => exact Follows.fail.start
      | cons tok ts =>
        obtain ⟨u, us, rfl, hu, hrest⟩ := h.cons
        refine .setLast ?_
        cases focus with
        | value k equals =>
          cases focus' with
          | name => exact hfocus.elim
          | value k' equals' =>
            have hk : k'.placeless = k.placeless := hfocus
            have htext : k'.placeless.text = k.placeless.text := by rw [hk]
            change k'.text = k.text at htext
            dsimp only
            rw [htext]
            refine (attrValue_from ht hu hrest (hts.drop 1) (hus.drop 1) tag k.text).bind fun v v' hv => ?_
            refine ih n' ?_ trivial
            rw [TagReading.withValue_placeless, TagReading.withValue_placeless, hr, hv, hk]
        | name =>
          cases focus' with
          | value => exact hfocus.elim
          | name =>
            cases hu.moved with
            | ident id pos => exact hgo (by simp) (hadd hu) trivial
            | group => exact Follows.unexpected.start
            | literal l pos =>
              dsimp only
              rw [show Literal.isString { l with pos } = l.isString from rfl]
              split
              · exact hgo (by simp) (hstart hu) trivial
              · exact Follows.unexpected.start
            | punct p pos =>
              dsimp only
              split
              · exact .skip (by simp) (Follows.start (.pure ⟨hend, rfl, rfl⟩))
              split
              · rw [hrest.any_head P.parted (fun t u hs => by rw [hs.isPunct, hs.glued]) fun t hgt =>
                  (Bool.and_eq_true_iff.mp hgt).2]
                split
                · rename_i hgt
                  refine .skip ?_ (Follows.start (.pure ⟨hend, rfl, rfl⟩))
                  cases ts with
                  | nil => cases hgt
                  | cons => simp
                · exact Follows.fail.start
              split
              · cases hk : r.key with
                | none => exact Follows.fail.start
                | some k =>
                  rw [hk] at hkey
                  obtain ⟨k', hk', hsame⟩ := Option.map_eq_some_iff.mp hkey
                  rw [hk']
                  exact hgo (by simp) hr hsame
              split
              · exact hgo (by simp) (hadd hu) trivial
              · exact Follows.unexpected.start

theorem attributes_follows (lt lt' : Option Position) (tag : Text) :
    P.Follows (t.attributes lt tag) (t'.attributes lt' tag)
      fun a b => b.1.placeless = a.1.placeless ∧ SameTagEnd a.2 b.2 :=
  rest_follows.bind fun _ _ _ => attributesWithin_follows ht lt lt' tag _ _ rfl trivial

end Seam
end Atmark
