import Atmark.Proofs.Parse.Returns
import Atmark.Directive.Builtin

/-! Properties of parsing steps that hold because of what steps are made of. A parse looks at its state,
changes it, checks whether it may go on, keeps fragments in the cache, and fails; it never looks at how many
checks are left. A property that such steps have, and that sequences of steps inherit (`Closed`), holds of
the whole parser if it holds of the directives and of the parse of an included file (`Closed.loop`). -/
namespace Atmark
open Node ParseM

namespace State

/-- The state with another number of checks left. -/
def within (s : State) (budget : Option Nat) : State := { s with world := { s.world with budget } }

@[simp] theorem within_within (s : State) (b b' : Option Nat) : (s.within b).within b' = s.within b' := rfl

@[simp] theorem within_budget (s : State) : s.within s.world.budget = s := rfl

theorem pushText_within (s : State) (b : Option Nat) (pos : Option Position) (t : Text) :
    (s.within b).pushText pos t = (s.pushText pos t).within b := by
  unfold pushText within
  generalize (if s.trimLine then trimText t else (t, false)) = p
  obtain ⟨trimmed, trimLine⟩ := p
  dsimp only
  split
  · rfl
  · cases s.sink with
    | nil => rfl
    | cons n ns => cases n <;> rfl

theorem foldl_push_within (ns : List Node) (s : State) (b : Option Nat) :
    ns.foldl push (s.within b) = (ns.foldl push s).within b := by
  induction ns generalizing s with
  | nil => rfl
  | cons n ns ih =>
    have h : (s.within b).push n = (s.push n).within b := by
      cases n with
      | text pos t => exact s.pushText_within b pos t
      | _ => rfl
    rw [List.foldl_cons, List.foldl_cons, h, ih]

/-- The state after a fragment is kept, if there is a cache. -/
def kept (s : State) (key : Text) (f : Fragment) : State :=
  { s with world := { s.world with cache := s.world.cache.map (·.put key f) } }

end State

namespace ParseM

/-- The steps have the property, and so have the steps that are composed of such. -/
structure Closed (P : {α : Type} → ParseM α → Prop) : Prop where
  pure {α : Type} (a : α) : P (Pure.pure a)
  bind {α β : Type} {m : ParseM α} {f : α → ParseM β} : P m → (∀ a, P (f a)) → P (m >>= f)
  throw {α : Type} {e : Error} : e.isStop = false → P (MonadExcept.throw e : ParseM α)
  look {α : Type} {f : State → ParseM α} :
    (∀ s b, f (s.within b) = f s) → (∀ s, P (f s)) → P (MonadState.get >>= f)
  change {f : State → State} : (∀ s b, f (s.within b) = (f s).within b) →
    (∀ s, (f s).world.cache = s.world.cache) → P (modify f)
  keep (key : Text) (f : Fragment) : P (modify (State.kept · key f))
  checkStop : P ParseM.checkStop

namespace Closed
variable {P : {α : Type} → ParseM α → Prop} (hP : Closed P) {α β : Type}
include hP

theorem fail (pos : Option Position) (cause : Fault) : P (ParseM.fail pos cause : ParseM α) :=
  hP.throw rfl

theorem unexpected (t : Token) (c : Context) : P (ParseM.unexpected t c : ParseM α) := hP.throw rfl

theorem guard {c : Prop} [Decidable c] {pos : Option Position} {cause : Fault} {m : Unit → ParseM α}
    (h : P (m ())) : P (if c then ParseM.fail pos cause >>= m else m ()) := by
  split
  · exact hP.bind (m := ParseM.fail pos cause) (hP.fail pos cause) fun _ => h
  · exact h

theorem rest : P ParseM.rest := hP.look (fun _ _ => rfl) fun _ => hP.pure _

theorem peek : P ParseM.peek := hP.look (fun _ _ => rfl) fun _ => hP.pure _

theorem skip (n : Nat) : P (ParseM.skip n) := hP.change (fun _ _ => rfl) fun _ => rfl

theorem setLast (pos : Option Position) : P (ParseM.setLast pos) :=
  hP.change (fun _ _ => rfl) fun _ => rfl

theorem trimLine : P ParseM.trimLine := hP.change (fun _ _ => rfl) fun _ => rfl

theorem declare (f : Declarations → Declarations) : P (ParseM.declare f) :=
  hP.change (fun _ _ => rfl) fun _ => rfl

theorem note (message : String) (fields : List (String × Text)) : P (ParseM.note message fields) :=
  hP.change (fun _ _ => rfl) fun _ => rfl

theorem emit (ns : List Node) : P (ParseM.emit ns) := by
  refine hP.change (fun s b => State.foldl_push_within ns s b) fun s => ?_
  obtain ⟨sink, trimLine, h⟩ := s.foldl_push_frame ns
  rw [h]

theorem emitText (t : Text) (pos : Option Position) : P (ParseM.emitText t pos) :=
  hP.emit [.text pos t]

/-- A step that looks at its state may be described by another one that does the same there. -/
theorem lookAs {f : State → ParseM α} (f' : State → ParseM α) (same : ∀ s, f s s = f' s s)
    (blind : ∀ s b, f' (s.within b) = f' s) (h : ∀ s, P (f' s)) : P (MonadState.get >>= f) := by
  have hsame : (MonadState.get >>= f : ParseM α) = MonadState.get >>= f' := funext same
  rw [hsame]
  exact hP.look blind h

/-- A step may change the state that it looked at, and go on with what it saw. -/
theorem enter {f : State → State} {k : State → ParseM α}
    (change : ∀ s b, f (s.within b) = (f s).within b)
    (cache : ∀ s, (f s).world.cache = s.world.cache) (blind : ∀ s b, k (s.within b) = k s)
    (h : ∀ s, P (k s)) :
    P (do
      let s ← get
      set (f s)
      k s) :=
  hP.lookAs (fun s => do modify f; k s) (fun _ => rfl) (fun s b => by rw [blind]) fun s =>
    hP.bind (hP.change change cache) fun _ => h s

theorem closingTag : P ParseM.closingTag := by
  refine hP.bind hP.peek fun lt => ?_
  refine hP.bind (hP.skip _) fun _ => ?_
  refine hP.bind hP.rest fun ts => ?_
  refine hP.bind (hP.skip _) fun _ => ?_
  refine hP.bind hP.peek fun gt => ?_
  split
  · exact hP.fail _ _
  · refine hP.bind (hP.skip _) fun _ => ?_
    split
    · exact hP.pure _
    · exact hP.unexpected _ _

theorem commentFrom (pos : Option Position) (ts : List Token) : P (ParseM.commentFrom pos ts) := by
  induction ts with
  | nil => exact hP.bind hP.checkStop fun _ => hP.fail _ _
  | cons tok ts ih =>
    refine hP.bind hP.checkStop fun _ => ?_
    split
    · exact hP.bind (hP.skip _) fun _ => hP.pure _
    · exact hP.bind (hP.skip _) fun _ => hP.bind ih fun _ => hP.pure _

theorem comment (lt : Punct) : P (ParseM.comment lt) := by
  refine hP.look (fun _ _ => rfl) fun s => ?_
  refine hP.bind (hP.skip _) fun _ => ?_
  refine hP.bind hP.rest fun ts => ?_
  exact hP.bind (hP.commentFrom _ _) fun _ => hP.emitText _ _

theorem untilBrace (pos : Option Position) (what : String) (ts : List Token) :
    P (ParseM.untilBrace pos what ts) := by
  induction ts with
  | nil => exact hP.bind hP.checkStop fun _ => hP.fail _ _
  | cons tok ts ih =>
    have hmore : P (ParseM.untilBrace pos what ts >>= fun found => Pure.pure (tok :: found.1, found.2)) :=
      hP.bind ih fun _ => hP.pure _
    refine hP.bind hP.checkStop fun _ => ?_
    refine hP.bind (hP.skip _) fun _ => ?_
    refine hP.bind (hP.setLast _) fun _ => ?_
    split
    · split
      · exact hP.pure _
      · exact hmore
    · exact hmore

end Closed
end ParseM

/-! ## Tools -/

/-- What a directive may use has the property: going on with the stream, and parsing an included file. -/
structure Tools.Keeps (t : Tools) (P : {α : Type} → ParseM α → Prop) : Prop where
  resume : P t.resume
  embed : ∀ file src, P (t.embed file src)

namespace ParseM.Closed
variable {P : {α : Type} → ParseM α → Prop} (hP : Closed P) {t : Tools} (ht : t.Keeps P)
include hP ht

theorem parse : P t.parse := hP.bind hP.checkStop fun _ => ht.resume

/-- The surrounding region is put aside and taken up again. -/
theorem region (f : Frame) (ts : List Token) (markup : Bool) : P (t.region f ts markup) := by
  refine hP.enter (fun _ _ => rfl) (fun _ => rfl) (fun _ _ => rfl) fun outer => ?_
  refine hP.bind (hP.parse ht) fun closing => ?_
  refine hP.enter (fun _ _ => rfl) (fun _ => rfl) (fun _ _ => rfl) fun inner => ?_
  split
  · exact hP.fail _ _
  · exact hP.pure _

theorem group (f : Frame) (ts : List Token) : P (t.group f ts) := by
  refine hP.look (fun _ _ => rfl) fun s => ?_
  split
  · refine hP.bind (hP.emitText _ _) fun _ => ?_
    refine hP.enter (fun _ _ => rfl) (fun _ => rfl) (fun _ _ => rfl) fun outer => ?_
    refine hP.bind (hP.parse ht) fun closing => ?_
    refine hP.bind (hP.change (fun _ _ => rfl) fun _ => rfl) fun _ => ?_
    split
    · exact hP.fail _ _
    · exact hP.emitText _ _
  · exact hP.bind (hP.region ht f ts _) fun _ => hP.emit _

theorem code (p : Punct) : P (t.code p) := by
  refine hP.bind (hP.skip _) fun _ => ?_
  refine hP.bind hP.rest fun ts => ?_
  split
  · split
    · refine hP.bind (hP.skip _) fun _ => ?_
      exact hP.bind (hP.region ht _ _ _) fun _ => hP.emit _
    · exact hP.emit _
  · exact hP.emit _

theorem selectors (ts : List Token) : P (t.selectors ts) := by
  have hnone : P (Pure.pure [] : ParseM (List Node)) := hP.pure _
  fun_induction Tools.selectors t ts with
  | case1 => exact hP.bind hP.checkStop fun _ => hnone
  | case2 tok ts ihDot ihPath ihGroup =>
    have hselect (p : Punct) (n : Ident) (k : Nat) {us : List Token} (ih : P (t.selectors us)) :
        P (do
          ParseM.skip k
          return .punct p :: .ident n :: (← t.selectors us)) :=
      hP.bind (hP.skip _) fun _ => hP.bind ih fun _ => hP.pure _
    refine hP.bind hP.checkStop fun _ => ?_
    split
    · exact hnone
    refine hP.bind (hP.setLast _) fun _ => ?_
    split
    · split
      · split
        · split
          · exact hselect _ _ _ ihDot
          · exact hnone
        · exact hnone
      · split
        · split
          · exact hnone
          · split
            · split
              · exact hselect _ _ _ ihPath
              · exact hnone
            · exact hnone
        · split
          · split
            · exact hP.fail _ _
            · exact hnone
          · exact hnone
    · split
      · exact hnone
      · refine hP.bind (hP.skip _) fun _ => ?_
        exact hP.bind (hP.region ht _ _ _) fun _ => hP.bind ihGroup fun _ => hP.pure _
    · exact hnone

theorem expressionFrom (id : Ident) : P (t.expressionFrom id) :=
  hP.bind hP.rest fun ts => hP.bind (hP.selectors ht ts) fun _ => hP.pure _

theorem expression : P t.expression := by
  have halone (p : Punct) : P (do ParseM.skip 1; return [Node.punct p]) :=
    hP.bind (hP.skip _) fun _ => hP.pure _
  refine hP.bind hP.rest fun ts => ?_
  split
  · exact hP.look (fun _ _ => rfl) fun _ => hP.fail _ _
  · exact hP.bind (hP.skip _) fun _ => hP.expressionFrom ht _
  · split
    · split
      · split
        · split
          · exact hP.bind (hP.skip _) fun _ => hP.bind (hP.expressionFrom ht _) fun _ => hP.pure _
          · exact halone _
        · exact halone _
      · exact hP.unexpected _ _
    · exact hP.unexpected _ _

theorem valueExpression (marker : Punct) (attr : Text) : P (t.valueExpression marker attr) := by
  refine hP.bind (hP.skip _) fun _ => ?_
  refine hP.bind hP.peek fun next => ?_
  split
  · exact hP.fail _ _
  · refine hP.guard ?_
    split
    · exact hP.expression ht
    · exact hP.bind (hP.skip _) fun _ => hP.pure _
    · split
      · refine hP.bind (hP.skip _) fun _ => ?_
        exact hP.bind (hP.region ht _ _ _) fun _ => hP.guard (hP.pure _)
      · exact hP.unexpected _ _
    · split
      · exact hP.expression ht
      · exact hP.unexpected _ _

omit ht in
theorem unquotedValue (tok : Token) (ts : List Token) : P (Tools.unquotedValue tok ts) :=
  hP.bind (hP.skip _) fun _ => hP.pure _

theorem attrValue (tag attr : Text) (tok : Token) (ts : List Token) :
    P (t.attrValue tag attr tok ts) := by
  have hrun : P (do return (⟨tok.pos, ← Tools.unquotedValue tok ts, []⟩ : AttrValue)) :=
    hP.bind (hP.unquotedValue tok ts) fun _ => hP.pure _
  unfold Tools.attrValue
  split
  · refine hP.bind (hP.skip _) fun _ => ?_
    split <;> exact hP.pure _
  · exact hrun
  · split
    · split
      · exact hP.fail _ _
      · exact hP.bind (hP.skip _) fun _ => hP.pure _
    split
    · exact hrun
    split
    · refine hP.bind (hP.valueExpression ht _ _) fun _ => ?_
      exact hP.bind (hP.note _ _) fun _ => hP.pure _
    split
    · exact hP.fail _ _
    · exact hP.unexpected _ _
  · exact hP.unexpected _ _

theorem attributesWithin (lt : Option Position) (tag : Text) (n : Nat) (r : TagReading)
    (focus : Tools.TagFocus) : P (t.attributesWithin lt tag n r focus) := by
  induction n generalizing r focus with
  | zero => exact hP.throw rfl
  | succ n ih =>
    have hgo (k : Nat) (r : TagReading) (focus : Tools.TagFocus) :
        P (do ParseM.skip k; t.attributesWithin lt tag n r focus) :=
      hP.bind (hP.skip k) fun _ => ih r focus
    refine hP.bind hP.checkStop fun _ => ?_
    refine hP.bind hP.rest fun ts => ?_
    split
    · exact hP.fail _ _
    · refine hP.bind (hP.setLast _) fun _ => ?_
      split
      · exact hP.bind (hP.attrValue ht _ _ _ _) fun _ => ih _ _
      · split
        · split
          · exact hP.bind (hP.skip _) fun _ => hP.pure _
          split
          · split
            · exact hP.bind (hP.skip _) fun _ => hP.pure _
            · exact hP.fail _ _
          split
          · split
            · exact hP.fail _ _
            · exact hgo _ _ _
          split
          · exact hgo _ _ _
          · exact hP.unexpected _ _
        · exact hgo _ _ _
        · split
          · exact hgo _ _ _
          · exact hP.unexpected _ _
        · exact hP.unexpected _ _

theorem attributes (lt : Option Position) (tag : Text) : P (t.attributes lt tag) :=
  hP.bind hP.rest fun _ => hP.attributesWithin ht lt tag _ _ _

end ParseM.Closed

/-! ## Elements and the loop -/

/-- The registry has the property: its directives, which use what has it, and its hooks, which do not say
that the compilation was given up. -/
structure Registry.Keeps (r : Registry) (P : {α : Type} → ParseM α → Prop) : Prop where
  directives : ∀ d ∈ r.directives, ∀ t id, Tools.Keeps t P → P (d.run t id)
  tagHooks : ∀ h ∈ r.tagHooks, ∀ c e, h.run c = .error e → e.isStop = false
  elementHooks : ∀ h ∈ r.elementHooks, ∀ c e, h.run c = .error e → e.isStop = false

theorem Error.isStop_withPosition (pos : Option Position) (e : Error) :
    (e.withPosition pos).isStop = e.isStop := by
  cases e <;> rfl

namespace ParseM.Closed
open Registry
variable {P : {α : Type} → ParseM α → Prop} (hP : Closed P)
include hP

/-- The answer of a hook, or the nodes that it leaves as they are. -/
theorem hooked {run : Except Error (Option (List Node))} (h : ∀ e, run = .error e → e.isStop = false)
    (ns : List Node) (pos : Option Position) (message : String)
    (fields : List Node → List (String × Text)) :
    P (match run with
      | .error e => MonadExcept.throw (e.withPosition pos)
      | .ok none => Pure.pure ns
      | .ok (some nodes) => do
        ParseM.note message (fields nodes)
        return nodes) := by
  cases run with
  | error e => exact hP.throw (by rw [Error.isStop_withPosition, h e rfl])
  | ok o =>
    cases o with
    | none => exact hP.pure _
    | some nodes => exact hP.bind (hP.note _ _) fun _ => hP.pure _

variable {r : Registry} (hr : r.Keeps P)
include hr

theorem tagNodes (c : TagContext) : P (r.tagNodes c) := by
  unfold Registry.tagNodes
  split
  · exact hP.pure _
  · rename_i h hh
    have hmem : h ∈ r.tagHooks.filter (·.accepts c.name) := hh ▸ List.mem_singleton_self h
    exact hP.hooked (hr.tagHooks h (List.mem_filter.mp hmem).1 c) _ _ _ _
  · exact hP.fail _ _

theorem elementNodes (c : ElementContext) : P (r.elementNodes c) := by
  unfold Registry.elementNodes
  split
  · exact hP.pure _
  · rename_i h hh
    have hmem : h ∈ r.elementHooks.filter (·.accepts c.name) := hh ▸ List.mem_singleton_self h
    exact hP.hooked (hr.elementHooks h (List.mem_filter.mp hmem).1 c) _ _ _ _
  · exact hP.fail _ _

variable {t : Tools} (ht : t.Keeps P)
include ht

theorem runDirective {d : Directive} (hd : d ∈ r.directives) (marker : Option Position) (id : Ident) :
    P (runDirective t d marker id) := by
  refine hP.bind (hP.skip _) fun _ => ?_
  refine hP.bind (hP.note _ _) fun _ => ?_
  refine hP.bind (hr.directives d hd t id ht) fun out => ?_
  cases out with
  | next => exact hP.pure _
  | leave => exact hP.change (fun _ _ => rfl) fun _ => rfl
  | expression => exact hP.bind (hP.expressionFrom ht _) fun _ => hP.emit _

theorem afterMarker (marker : Option Position) (next : Token) : P (r.afterMarker t marker next) := by
  have hexpression : P (do ParseM.emit [.write marker (← t.expression)]) :=
    hP.bind (hP.expression ht) fun _ => hP.emit _
  unfold Registry.afterMarker
  split
  · split
    · exact hP.bind (hP.skip _) fun _ => hP.emitText _ _
    split
    · exact hexpression
    · exact hP.unexpected _ _
  · split
    · rename_i d hd
      exact hP.runDirective hr ht (List.mem_of_find?_eq_some hd) marker _
    · exact hexpression
  · exact hP.bind (hP.skip _) fun _ => hP.emit _
  · split
    · refine hP.bind (hP.skip _) fun _ => ?_
      exact hP.bind (hP.region ht _ _ _) fun _ => hP.guard (hP.emit _)
    split
    · refine hP.bind (hP.skip _) fun _ => ?_
      refine hP.bind (hP.region ht _ _ _) fun nodes => ?_
      refine hP.bind (hP.emit _) fun _ => ?_
      split
      · exact hP.emit _
      · exact hP.pure _
    · exact hP.unexpected _ _

theorem gluedToMarker (marker : Option Position) : P (r.gluedToMarker t marker) := by
  refine hP.bind hP.peek fun next => ?_
  split
  · exact hP.fail _ _
  · refine hP.guard ?_
    exact hP.bind (hP.setLast _) fun _ => hP.afterMarker hr ht _ _

theorem marker (m : Token) : P (r.marker t m) := by
  refine hP.bind (hP.skip _) fun _ => ?_
  refine hP.look (fun _ _ => rfl) fun s => ?_
  split
  · exact hP.emitText _ _
  · split
    · exact hP.bind (hP.emitText _ _) fun _ => hP.gluedToMarker hr ht _
    · exact hP.gluedToMarker hr ht _

theorem rawTextWithin (name : Text) (n : Nat) : P (r.rawTextWithin t name n) := by
  induction n with
  | zero => exact hP.throw rfl
  | succ n ih =>
    refine hP.bind hP.checkStop fun _ => ?_
    refine hP.bind hP.rest fun ts => ?_
    split
    · exact hP.pure _
    · refine hP.bind (hP.setLast _) fun _ => ?_
      split
      · refine hP.bind (hP.emitText _ _) fun _ => ?_
        exact hP.bind hP.closingTag fun _ => hP.pure _
      split
      · exact hP.bind (hP.marker hr ht _) fun _ => ih
      · refine hP.bind (hP.skip _) fun _ => ?_
        exact hP.bind (hP.emitText _ _) fun _ => ih

theorem children (name : Text) : P (r.children t name) := by
  have hcontent : P (r.content t name) := by
    unfold Registry.content
    split
    · exact hP.rawTextWithin hr ht name _
    · exact hP.parse ht
  rw [children_eq]
  refine hP.enter (fun _ _ => rfl) (fun _ => rfl) (fun _ _ => rfl) fun outer => ?_
  refine hP.bind hcontent fun closing => ?_
  exact hP.enter (fun _ _ => rfl) (fun _ => rfl) (fun _ _ => rfl) fun inner => hP.pure _

theorem element (lt : Punct) : P (r.element t lt) := by
  refine hP.bind (hP.skip _) fun _ => ?_
  refine hP.bind hP.rest fun ts => ?_
  refine hP.bind (hP.skip _) fun _ => ?_
  refine hP.bind (hP.attributes ht _ _) fun read => ?_
  refine hP.bind (hP.tagNodes hr _) fun opening => ?_
  split
  · exact hP.emit _
  · refine hP.bind (hP.children hr ht _) fun ⟨children, closing⟩ => ?_
    cases closing with
    | none => exact hP.fail _ _
    | some c =>
      refine hP.guard ?_
      refine hP.bind (hP.tagNodes hr _) fun stop => ?_
      exact hP.bind (hP.elementNodes hr _) fun _ => hP.emit _

theorem tagEntry (lt : Punct) (ts : List Token) : P (r.tagEntry t lt ts) := by
  have hclosing : P (do return some (← ParseM.closingTag)) :=
    hP.bind hP.closingTag fun _ => hP.pure _
  have helement : P (do
      r.element t lt
      return (none : Option ClosingTag)) :=
    hP.bind (hP.element hr ht lt) fun _ => hP.pure _
  refine hP.look (fun _ _ => rfl) fun s => ?_
  dsimp only
  split
  · split
    · exact hP.bind (hP.emitText _ _) fun _ => hclosing
    · exact hclosing
  split
  · exact hP.bind (hP.comment lt) fun _ => hP.pure _
  split
  · split
    · exact hP.bind (hP.emitText _ _) fun _ => helement
    · exact helement
  · refine hP.bind (hP.skip _) fun _ => ?_
    split
    · exact hP.bind (hP.emitText _ _) fun _ => hP.pure _
    · exact hP.bind (hP.emit _) fun _ => hP.pure _

omit hr in
theorem goOn : P (Registry.goOn t) := by
  refine hP.lookAs (fun s => if s.broken then do
      modify fun s => { s with broken := false }
      return none
    else t.resume) (fun s => ?_) (fun _ _ => rfl) fun s => ?_
  · split <;> rfl
  · split
    · exact hP.bind (hP.change (fun _ _ => rfl) fun _ => rfl) fun _ => hP.pure _
    · exact ht.resume

theorem turn : P (r.turn t) := by
  refine hP.bind hP.checkStop fun _ => ?_
  refine hP.bind hP.rest fun ts => ?_
  cases ts with
  | nil => exact hP.pure _
  | cons tok ts =>
    refine hP.bind (hP.setLast _) fun _ => ?_
    refine hP.look (fun _ _ => rfl) fun s => ?_
    split
    · refine hP.bind (hP.skip _) fun _ => ?_
      exact hP.bind (hP.emitText _ _) fun _ => hP.goOn ht
    · refine hP.bind (hP.skip _) fun _ => ?_
      exact hP.bind (hP.group ht _ _) fun _ => hP.goOn ht
    · exact hP.bind (hP.marker hr ht _) fun _ => hP.goOn ht
    · refine hP.bind (hP.tagEntry hr ht _ _) fun closing => ?_
      cases closing with
      | some c => exact hP.pure _
      | none => exact hP.goOn ht
    · exact hP.bind (hP.expression ht) fun _ => hP.bind (hP.emit _) fun _ => hP.goOn ht
    · refine hP.bind (hP.skip _) fun _ => ?_
      exact hP.bind (hP.emit _) fun _ => hP.goOn ht
    · exact hP.bind (hP.code ht _) fun _ => hP.goOn ht
    · exact hP.pure _

omit ht in
/-- The loop has the property, whatever the tokens are. -/
theorem loop (settings : Settings) {embed : Text → Text → ParseM Fragment}
    (he : ∀ file src, P (embed file src)) (n : Nat) : P (r.loop settings embed n) := by
  induction n with
  | zero => exact hP.throw rfl
  | succ n ih => exact hP.turn hr ⟨ih, he⟩

omit ht in
theorem readTokens (settings : Settings) {embed : Text → Text → ParseM Fragment}
    (he : ∀ file src, P (embed file src)) (n : Nat) (tokens : List Token) (trailing : Text) :
    P (r.readTokens settings embed n tokens trailing) := by
  refine hP.bind hP.checkStop fun _ => ?_
  refine hP.bind (hP.loop hr settings he n) fun closing => ?_
  cases closing with
  | some c => exact hP.fail _ _
  | none => exact hP.emitText _ _

end ParseM.Closed
end Atmark
