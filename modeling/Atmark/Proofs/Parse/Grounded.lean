import Atmark.Proofs.Node.Grounded
import Atmark.Proofs.Parse.Closing

/-! Parsing grounded tokens gives grounded nodes. A state is grounded when what is left of its tokens is read from a
source, the last token read has a position, and the nodes of its region, its statements and the cached contents are
grounded. Every step leads from such a state to such a state, whether it returns or fails (`Grounds`); so that is
how a compilation stands at each of its checks, since each of them may be where it is stopped. -/
namespace Atmark
open Node ParseM

/-! ## Grounded states -/

/-- The nodes of a content are grounded, and none of its statements is empty. -/
structure Fragment.Grounded (S : Text → Prop) (f : Fragment) : Prop where
  nodes : AllGrounded S f.nodes
  injects : [] ∉ f.injects

/-- Any source at all. -/
def anySource : Text → Prop := fun _ => True

/-- The cached contents are grounded. -/
def World.Grounded (S : Text → Prop) (w : World) : Prop :=
  ∀ c, w.cache = some c → ∀ e ∈ c.entries, e.2.Grounded S

/-- What the next step takes for granted is there. -/
structure State.Grounded (S : Text → Prop) (s : State) : Prop where
  tokens : Token.ReadFrom S s.stream.rest
  stop : s.stream.stop.isSome = true
  last : s.last.isSome = true
  sink : AllGrounded S s.sink.reverse
  injects : [] ∉ s.declared.injects
  cache : s.world.Grounded S

/-- A closing tag has a position and the tokens of its name. -/
structure ClosingTag.Grounded (c : ClosingTag) : Prop where
  pos : c.pos.isSome = true
  tokens : c.tokens ≠ []

/-- The closing tag that was read, if one was, is grounded. -/
def ClosingTag.ReadGrounded (closing : Option ClosingTag) : Prop := ∀ c, closing = some c → c.Grounded

theorem ClosingTag.ReadGrounded.none : ReadGrounded none := nofun

theorem ClosingTag.ReadGrounded.some {c : ClosingTag} (h : c.Grounded) : ReadGrounded (some c) := by
  rintro c' ⟨⟩
  exact h

namespace ParseM
variable {α β : Type} {S : Text → Prop}

/-- The step has ended in a grounded state, and its result has `Q`. -/
def EndsGrounded (S : Text → Prop) (Q : α → Prop) : EStateM.Result Error State α → Prop
  | .ok a s => s.Grounded S ∧ Q a
  | .error _ s => s.Grounded S

/-- From a grounded state the step ends in one, and its result has `Q`. -/
def Grounds (S : Text → Prop) (m : ParseM α) (Q : α → Prop) : Prop :=
  ∀ s, s.Grounded S → EndsGrounded S Q (m s)

theorem EndsGrounded.bind {Q : α → Prop} {R : β → Prop} {m : ParseM α} {f : α → ParseM β} {s : State}
    (hm : EndsGrounded S Q (m s)) (hf : ∀ a, Q a → Grounds S (f a) R) : EndsGrounded S R ((m >>= f) s) := by
  simp only [Bind.bind, EStateM.bind]
  cases hms : m s with
  | ok a t =>
    rw [hms] at hm
    exact hf a hm.2 t hm.1
  | error e t =>
    rw [hms] at hm
    exact hm

namespace Grounds
variable {Q Q' : α → Prop} {R : β → Prop}

theorem bind {m : ParseM α} {f : α → ParseM β} (hm : Grounds S m Q) (hf : ∀ a, Q a → Grounds S (f a) R) :
    Grounds S (m >>= f) R := fun s hs => (hm s hs).bind hf

theorem pure {a : α} (h : Q a) : Grounds S (Pure.pure a) Q := fun _ hs => ⟨hs, h⟩

theorem throw (e : Error) : Grounds S (MonadExcept.throw e : ParseM α) Q := fun _ hs => hs

theorem fail (pos : Option Position) (cause : Fault) : Grounds S (ParseM.fail pos cause) Q := throw _

theorem unexpected (t : Token) (c : Context) : Grounds S (ParseM.unexpected t c) Q := throw _

/-- Whatever follows a check that fails is only reached when it does not. -/
theorem guard {c : Prop} [Decidable c] {pos : Option Position} {cause : Fault} {m : Unit → ParseM α}
    (h : ¬c → Grounds S (m ()) Q) : Grounds S (if c then ParseM.fail pos cause >>= m else m ()) Q := by
  split
  · exact (fail (Q := fun _ => False) _ _).bind fun _ hf => hf.elim
  · rename_i hc
    exact h hc

theorem mono {m : ParseM α} (h : Grounds S m Q) (hq : ∀ a, Q a → Q' a) : Grounds S m Q' := by
  intro s hs
  have hm := h s hs
  cases hms : m s with
  | ok a t =>
    rw [hms] at hm
    exact ⟨hm.1, hq a hm.2⟩
  | error e t =>
    rw [hms] at hm
    exact hm

theorem get : Grounds S (MonadState.get : ParseM State) (State.Grounded S) := fun _ hs => ⟨hs, hs⟩

theorem set {x : State} (h : x.Grounded S) : Grounds S (MonadStateOf.set x : ParseM PUnit) fun _ => True :=
  fun _ _ => ⟨h, trivial⟩

theorem modify {f : State → State} (h : ∀ s, s.Grounded S → (f s).Grounded S) :
    Grounds S (modify f : ParseM PUnit) fun _ => True := fun s hs => ⟨h s hs, trivial⟩

end Grounds

/-! ## Single steps -/

theorem setLast_bind (s : State) (pos : Option Position) (f : Unit → ParseM β) :
    (setLast pos >>= f) s = f () { s with last := pos } := rfl

theorem rest_grounds : Grounds S rest (Token.ReadFrom S) := fun _ hs => ⟨hs, hs.tokens⟩

theorem peek_grounds : Grounds S peek fun next => ∀ t, next = some t → ∃ ts, Token.ReadFrom S (t :: ts) := by
  refine fun s hs => ⟨hs, fun t ht => ?_⟩
  obtain ⟨ts, hrest⟩ := List.head?_eq_some_iff.mp ht
  exact ⟨ts, hrest ▸ hs.tokens⟩

theorem skip_grounds (n : Nat) : Grounds S (skip n) fun _ => True :=
  .modify fun s hs => ⟨by rw [Stream.rest_skip]; exact hs.tokens.drop n, by rw [Stream.stop_skip]; exact hs.stop,
    hs.last, hs.sink, hs.injects, hs.cache⟩

theorem setLast_grounds {pos : Option Position} (h : pos.isSome = true) :
    Grounds S (setLast pos) fun _ => True :=
  .modify fun _ hs => ⟨hs.tokens, hs.stop, h, hs.sink, hs.injects, hs.cache⟩

theorem note_grounds (message : String) (fields : List (String × Text)) :
    Grounds S (note message fields) fun _ => True :=
  .modify fun _ hs => ⟨hs.tokens, hs.stop, hs.last, hs.sink, hs.injects, hs.cache⟩

theorem trimLine_grounds : Grounds S trimLine fun _ => True :=
  .modify fun _ hs => ⟨hs.tokens, hs.stop, hs.last, hs.sink, hs.injects, hs.cache⟩

theorem declare_grounds {f : Declarations → Declarations} (h : ∀ d, [] ∉ d.injects → [] ∉ (f d).injects) :
    Grounds S (declare f) fun _ => True :=
  .modify fun _ hs => ⟨hs.tokens, hs.stop, hs.last, hs.sink, h _ hs.injects, hs.cache⟩

theorem checkStop_grounds : Grounds S checkStop fun _ => True := by
  refine Grounds.get.bind fun s hs => ?_
  split
  · exact .pure trivial
  · exact .throw _
  · exact .set ⟨hs.tokens, hs.stop, hs.last, hs.sink, hs.injects, hs.cache⟩

theorem emit_grounds {ns : List Node} (h : AllGrounded S ns) : Grounds S (emit ns) fun _ => True :=
  .modify fun s hs => by
    have hsink := State.foldl_push_grounded hs.sink h
    obtain ⟨sink, trimLine, hf⟩ := s.foldl_push_frame ns
    rw [hf] at hsink ⊢
    exact ⟨hs.tokens, hs.stop, hs.last, hsink, hs.injects, hs.cache⟩

theorem emitText_grounds (t : Text) {pos : Option Position} (h : pos.isSome = true) :
    Grounds S (emitText t pos) fun _ => True :=
  emit_grounds (AllGrounded.nil.leaf (n := .text pos t) ⟨h, trivial⟩ rfl)

theorem untilBrace_grounds (pos : Option Position) (what : String) {ts : List Token}
    (h : Token.ReadFrom S ts) : Grounds S (untilBrace pos what ts) fun (header, f, cs) =>
      (∀ t ∈ header, t ∈ ts) ∧ .group f cs ∈ ts := by
  induction ts with
  | nil => exact checkStop_grounds.bind fun _ _ => .fail _ _
  | cons tok ts ih =>
    have hmore (p : List Token × Frame × List Token) (hp : (∀ t ∈ p.1, t ∈ ts) ∧ .group p.2.1 p.2.2 ∈ ts) :
        (∀ t ∈ tok :: p.1, t ∈ tok :: ts) ∧ .group p.2.1 p.2.2 ∈ tok :: ts :=
      ⟨List.forall_mem_cons.mpr ⟨.head _, fun t ht => .tail _ (hp.1 t ht)⟩, .tail _ hp.2⟩
    refine checkStop_grounds.bind fun _ _ => ?_
    refine (skip_grounds _).bind fun _ _ => ?_
    refine (setLast_grounds h.pos).bind fun _ _ => ?_
    split
    · split
      · exact .pure ⟨by simp, .head _⟩
      · exact (ih h.tail).bind fun p hp => .pure (hmore p hp)
    · exact (ih h.tail).bind fun p hp => .pure (hmore p hp)

theorem commentFrom_grounds (pos : Option Position) (ts : List Token) :
    Grounds S (commentFrom pos ts) fun _ => True := by
  induction ts with
  | nil => exact checkStop_grounds.bind fun _ _ => .fail _ _
  | cons tok ts ih =>
    refine checkStop_grounds.bind fun _ _ => ?_
    split
    · exact (skip_grounds _).bind fun _ _ => .pure trivial
    · exact (skip_grounds _).bind fun _ _ => ih.bind fun _ _ => .pure trivial

theorem comment_grounds {lt : Punct} (h : lt.pos.isSome = true) : Grounds S (comment lt) fun _ => True := by
  refine Grounds.get.bind fun _ _ => ?_
  refine (skip_grounds _).bind fun _ _ => ?_
  refine rest_grounds.bind fun ts _ => ?_
  refine (commentFrom_grounds _ ts).bind fun _ _ => ?_
  exact emitText_grounds _ h

end ParseM

/-! ## Regions and expressions -/

/-- Going on and including a template lead from grounded states to grounded states, and the files have the sources
that `S` has. -/
structure Tools.Grounded (S : Text → Prop) (t : Tools) : Prop where
  resume : Grounds S t.resume ClosingTag.ReadGrounded
  embed : ∀ file src, S src → Grounds S (t.embed file src) (Fragment.Grounded S)
  files : ∀ files path src, t.settings.files = some files → files.read path = .ok src → S src

namespace Tools
variable {S : Text → Prop} {t : Tools} (ht : t.Grounded S)
include ht

theorem parse_grounds : Grounds S t.parse ClosingTag.ReadGrounded :=
  checkStop_grounds.bind fun _ _ => ht.resume

theorem region_grounds {f : Frame} {ts : List Token} (hf : f.pos.isSome = true) (hts : Token.ReadFrom S ts)
    (markup : Bool) : Grounds S (t.region f ts markup) (AllGrounded S) := by
  refine Grounds.get.bind fun outer ho => ?_
  refine Grounds.bind (.set ⟨hts, hf, ho.last, .nil, ho.injects, ho.cache⟩) fun _ _ => ?_
  refine (parse_grounds ht).bind fun closing _ => ?_
  refine Grounds.get.bind fun inner hi => ?_
  refine Grounds.bind (.set ⟨ho.tokens, ho.stop, hi.last, ho.sink, hi.injects, hi.cache⟩) fun _ _ => ?_
  split
  · exact .fail _ _
  · exact .pure hi.sink

theorem group_grounds {f : Frame} {ts : List Token} (hf : f.pos.isSome = true) (hts : Token.ReadFrom S ts) :
    Grounds S (t.group f ts) fun _ => True := by
  refine Grounds.get.bind fun s _ => ?_
  split
  · refine (emitText_grounds _ hf).bind fun _ _ => ?_
    refine Grounds.get.bind fun outer ho => ?_
    refine Grounds.bind (.set ⟨hts, hf, ho.last, ho.sink, ho.injects, ho.cache⟩) fun _ _ => ?_
    refine (parse_grounds ht).bind fun closing _ => ?_
    refine Grounds.bind (.modify fun s hs => ⟨ho.tokens, ho.stop, hs.last, hs.sink, hs.injects, hs.cache⟩)
      fun _ _ => ?_
    split
    · exact .fail _ _
    · exact emitText_grounds _ hf
  · refine (region_grounds ht hf hts _).bind fun children hc => ?_
    exact emit_grounds (.single ⟨hf, trivial⟩ (by simpa [lists] using hc) rfl)

theorem code_grounds {p : Punct} (hp : p.pos.isSome = true) : Grounds S (t.code p) fun _ => True := by
  have hemit : Grounds S (emit [.punct p]) fun _ => True :=
    emit_grounds (AllGrounded.nil.leaf ⟨hp, trivial⟩ rfl)
  refine (skip_grounds _).bind fun _ _ => ?_
  refine rest_grounds.bind fun ts hts => ?_
  split
  · rename_i d a type f cs us
    split
    · refine (skip_grounds _).bind fun _ _ => ?_
      have hf : (Token.group f cs).Grounded := hts.grounded (by simp)
      have htype : (Token.ident type).Grounded := hts.grounded (by simp)
      refine (region_grounds ht hf.pos (hts.group (f := f) (by simp)) _).bind fun children hc => ?_
      exact emit_grounds (.single ⟨htype.pos, trivial⟩ (by simpa [lists] using hc) rfl)
    · exact hemit
  · exact hemit

theorem selectors_grounds {ts : List Token} (hts : Token.ReadFrom S ts) :
    Grounds S (t.selectors ts) (AllGrounded S) := by
  have hnone : Grounds S (pure []) (AllGrounded S) := .pure .nil
  fun_induction Tools.selectors t ts with
  | case1 => exact checkStop_grounds.bind fun _ _ => hnone
  | case2 tok ts ihDot ihPath ihGroup =>
    have hselect {p : Punct} {n : Ident} (k : Nat) {us : List Token} (hp : p.pos.isSome = true)
        (hn : .ident n ∈ ts) (ih : Grounds S (t.selectors us) (AllGrounded S)) :
        Grounds S (do
          skip k
          return .punct p :: .ident n :: (← t.selectors us)) (AllGrounded S) := by
      have hid : (Token.ident n).Grounded := hts.grounded (.tail _ hn)
      refine (skip_grounds _).bind fun _ _ => ih.bind fun ns hs => .pure ?_
      have hname : AllGrounded S (.ident n :: ns) := hs.leaf ⟨hid.pos, trivial⟩ rfl
      exact hname.leaf ⟨hp, trivial⟩ rfl
    refine checkStop_grounds.bind fun _ _ => ?_
    split
    · exact hnone
    refine (setLast_grounds hts.pos).bind fun _ _ => ?_
    split
    · split
      · split
        · split
          · exact hselect _ hts.pos (.head _) (ihDot hts.tail.tail)
          · exact hnone
        · exact hnone
      · split
        · split
          · exact hnone
          · split
            · split
              · exact hselect _ hts.pos (.tail _ (.head _)) (ihPath hts.tail.tail.tail)
              · exact hnone
            · exact hnone
        · split
          · split
            · exact .fail _ _
            · exact hnone
          · exact hnone
    · split
      · exact hnone
      · refine (skip_grounds _).bind fun _ _ => ?_
        refine (region_grounds ht hts.pos hts.inner _).bind fun children hc => ?_
        refine (ihGroup hts.tail).bind fun _ hs => .pure ?_
        exact hs.cons ⟨hts.pos, trivial⟩ (by simpa [lists] using hc) rfl
    · exact hnone

/-- An expression has a node at least. -/
theorem expressionFrom_grounds {id : Ident} (hid : id.pos.isSome = true) :
    Grounds S (t.expressionFrom id) fun ns => AllGrounded S ns ∧ ns ≠ [] := by
  refine rest_grounds.bind fun ts hts => ?_
  refine (selectors_grounds ht hts).bind fun ns hs => ?_
  exact .pure ⟨hs.leaf ⟨hid, trivial⟩ rfl, by simp⟩

theorem expression_grounds : Grounds S t.expression fun ns => AllGrounded S ns ∧ ns ≠ [] := by
  have halone {p : Punct} (hp : p.pos.isSome = true) :
      Grounds S (do skip 1; return [.punct p]) fun ns => AllGrounded S ns ∧ ns ≠ [] :=
    (skip_grounds _).bind fun _ _ => .pure ⟨AllGrounded.nil.leaf ⟨hp, trivial⟩ rfl, by simp⟩
  refine rest_grounds.bind fun ts hts => ?_
  split
  · exact Grounds.get.bind fun _ _ => .fail _ _
  · exact (skip_grounds _).bind fun _ _ => expressionFrom_grounds ht hts.pos
  · split
    · split
      · split
        · split
          · refine (skip_grounds _).bind fun _ _ => ?_
            refine (expressionFrom_grounds ht hts.tail.pos).bind fun ns hs => ?_
            exact .pure ⟨hs.1.leaf ⟨hts.pos, trivial⟩ rfl, by simp⟩
          · exact halone hts.pos
        · exact halone hts.pos
      · exact .unexpected _ _
    · exact .unexpected _ _

/-! ## Attributes -/

theorem valueExpression_grounds (marker : Punct) (attr : Text) :
    Grounds S (t.valueExpression marker attr) fun ns => AllGrounded S ns ∧ ns ≠ [] := by
  refine (skip_grounds _).bind fun _ _ => ?_
  refine peek_grounds.bind fun next hnext => ?_
  split
  · exact .fail _ _
  · obtain ⟨ts, hts⟩ := hnext _ rfl
    refine .guard fun _ => ?_
    split
    · exact expression_grounds ht
    · refine (skip_grounds _).bind fun _ _ => .pure ⟨?_, by simp⟩
      exact AllGrounded.nil.leaf ⟨hts.pos, (hts.grounded (.head _)).quoted _ rfl⟩ rfl
    · split
      · refine (skip_grounds _).bind fun _ _ => ?_
        refine (region_grounds ht hts.pos hts.inner _).bind fun expr he => ?_
        exact .guard fun hne => .pure ⟨he, by simpa using hne⟩
      · exact .unexpected _ _
    · split
      · exact expression_grounds ht
      · exact .unexpected _ _

theorem attrValue_grounds (tag attr : Text) {tok : Token} {ts : List Token} (hts : Token.ReadFrom S (tok :: ts)) :
    Grounds S (t.attrValue tag attr tok ts) fun v =>
      ReadValue S v.pos v.fixed v.expr ∧ AllGrounded S v.expr := by
  have hrun (hstarts : tok.startsRun = true) : Grounds S (do
      return (⟨tok.pos, ← unquotedValue tok ts, []⟩ : AttrValue)) fun v =>
        ReadValue S v.pos v.fixed v.expr ∧ AllGrounded S v.expr :=
    (skip_grounds _).bind fun _ _ => .pure ⟨.run hts hstarts, .nil⟩
  unfold attrValue
  split
  · rename_i l
    refine (skip_grounds _).bind fun _ _ => ?_
    split
    · rename_i hkind
      exact .pure ⟨.number hts hkind, .nil⟩
    · rename_i hkind
      exact .pure ⟨.quoted hts (by simpa using hkind), .nil⟩
  · exact hrun rfl
  · rename_i p
    split
    · rename_i hp
      split
      · exact .fail _ _
      · rename_i us space hus
        exact (skip_grounds _).bind fun _ _ => .pure ⟨.apostrophes hts hp hus, .nil⟩
    · split
      · rename_i hdash
        exact hrun hdash
      · split
        · rename_i hmarker
          refine (valueExpression_grounds ht _ _).bind fun expr he => ?_
          exact (note_grounds _ _).bind fun _ _ => .pure ⟨.expression hts hmarker he.2, he.1⟩
        · split
          · exact .fail _ _
          · exact .unexpected _ _
  · exact .unexpected _ _

end Tools

/-- An attribute name has a position and, if it is written as a literal, its quotes. -/
structure AttrKey.Grounded (k : AttrKey) : Prop where
  pos : k.pos.isSome = true
  quoted : ∀ l, k.quoted = some l → l.Quoted

/-- The attributes read so far are grounded, and so is the name being read. -/
structure TagReading.Grounded (S : Text → Prop) (r : TagReading) : Prop where
  nodes : AllGrounded S r.nodes.reverse
  key : ∀ k, r.key = some k → k.Grounded

theorem AttrKey.Grounded.node {S : Text → Prop} {k : AttrKey} (h : k.Grounded) :
    (TagReading.keyNode k).Grounded S := by
  refine ⟨h.pos, ?_⟩
  unfold TagReading.keyNode
  cases hquoted : k.quoted with
  | none => trivial
  | some l => exact h.quoted l hquoted

namespace TagReading.Grounded
variable {S : Text → Prop} {r : TagReading} (hr : r.Grounded S)
include hr

theorem withoutValue : r.withoutValue.Grounded S := by
  unfold TagReading.withoutValue
  split
  · exact hr
  · rename_i k hk
    refine ⟨?_, by simp⟩
    rw [List.reverse_cons]
    exact hr.nodes.append (.single (hr.key k hk).node (by simp [keyNode, lists]) rfl)

theorem withValue {k : AttrKey} (hk : k.Grounded) {equals : Option Position} (hequals : equals.isSome = true)
    {v : AttrValue} (hv : ReadValue S v.pos v.fixed v.expr) (he : AllGrounded S v.expr) :
    (r.withValue k equals v).Grounded S := by
  obtain ⟨p, rfl⟩ := Option.isSome_iff_exists.mp hequals
  have h : (r.withValue k (some p) v).nodes.reverse =
      r.nodes.reverse ++ [keyNode k] ++ [.attrEquals (some p), v.node] := by
    simp [TagReading.withValue]
  refine ⟨?_, by simp [TagReading.withValue]⟩
  rw [h]
  have hkey : AllGrounded S [keyNode k] := .single hk.node (by simp [keyNode, lists]) rfl
  exact (hr.nodes.append hkey).append (AllGrounded.nil.value hv he)

theorem startKey {tok : Token} (htok : tok.Grounded) : (r.startKey tok).Grounded S := by
  have h := hr.withoutValue
  unfold TagReading.startKey
  dsimp only
  split
  · rename_i l
    refine ⟨h.nodes, ?_⟩
    rintro k ⟨⟩
    refine ⟨htok.pos, ?_⟩
    rintro l' ⟨⟩
    exact htok.quoted _ rfl
  · refine ⟨h.nodes, ?_⟩
    rintro k ⟨⟩
    exact ⟨htok.pos, by simp⟩

theorem addKey {tok : Token} (htok : tok.Grounded) : (r.addKey tok).Grounded S := by
  unfold TagReading.addKey
  split
  · rename_i k hk
    split
    · refine ⟨hr.nodes, ?_⟩
      rintro k' ⟨⟩
      exact ⟨(hr.key k hk).pos, (hr.key k hk).quoted⟩
    · exact hr.startKey htok
  · exact hr.startKey htok

end TagReading.Grounded

/-- The name whose value is being read is grounded, and its equals sign has a position. -/
def Tools.TagFocus.Grounded : Tools.TagFocus → Prop
  | .name => True
  | .value k equals => k.Grounded ∧ equals.isSome = true

namespace Tools
variable {S : Text → Prop} {t : Tools} (ht : t.Grounded S)
include ht

theorem attributesWithin_grounds (lt : Option Position) (tag : Text) (n : Nat) {r : TagReading}
    (hr : r.Grounded S) {focus : TagFocus} (hfocus : focus.Grounded) :
    Grounds S (t.attributesWithin lt tag n r focus) fun (r, stop) => r.Grounded S ∧ stop.pos.isSome = true := by
  induction n generalizing r focus with
  | zero => exact .throw _
  | succ n ih =>
    have hgo {r : TagReading} (k : Nat) (hr : r.Grounded S) {focus : TagFocus} (hfocus : focus.Grounded) :
        Grounds S (do skip k; t.attributesWithin lt tag n r focus) fun (r, stop) =>
          r.Grounded S ∧ stop.pos.isSome = true :=
      (skip_grounds k).bind fun _ _ => ih hr hfocus
    refine checkStop_grounds.bind fun _ _ => ?_
    refine rest_grounds.bind fun ts hts => ?_
    split
    · exact .fail _ _
    · rename_i tok us
      have htok : tok.Grounded := hts.grounded (.head _)
      refine (setLast_grounds htok.pos).bind fun _ _ => ?_
      split
      · refine (attrValue_grounds ht _ _ hts).bind fun v hv => ?_
        exact ih (hr.withValue hfocus.1 hfocus.2 hv.1 hv.2) trivial
      · split
        · split
          · exact (skip_grounds _).bind fun _ _ => .pure ⟨hr.withoutValue, htok.pos⟩
          split
          · split
            · exact (skip_grounds _).bind fun _ _ => .pure ⟨hr.withoutValue, htok.pos⟩
            · exact .fail _ _
          split
          · split
            · exact .fail _ _
            · rename_i k hk
              exact hgo _ hr ⟨hr.key k hk, htok.pos⟩
          split
          · exact hgo _ (hr.addKey htok) trivial
          · exact .unexpected _ _
        · exact hgo _ (hr.addKey htok) trivial
        · split
          · exact hgo _ (hr.startKey htok) trivial
          · exact .unexpected _ _
        · exact .unexpected _ _

theorem attributes_grounds (lt : Option Position) (tag : Text) :
    Grounds S (t.attributes lt tag) fun (r, stop) => r.Grounded S ∧ stop.pos.isSome = true := by
  have hr : TagReading.Grounded S {} := ⟨.nil, by simp⟩
  exact rest_grounds.bind fun _ _ => attributesWithin_grounds ht lt tag _ hr trivial

end Tools

/-! ## Elements -/

/-- No hook replaces tags, the hooks of elements answer with grounded nodes if the children are, the token that ends
raw text starts a tag name, and the directives lead from grounded states to grounded states. -/
structure Registry.Grounded (S : Text → Prop) (r : Registry) : Prop where
  tagHooks : r.tagHooks = []
  elementHooks : ∀ h ∈ r.elementHooks, ∀ c ns, AllGrounded S c.children → h.run c = .ok (some ns) → AllGrounded S ns
  rawText : ∀ name t ts, r.isRawText name = true → Token.ReadFrom S (t :: ts) →
    Text.sameFold t.brief name = true → t.continuesTagName = true
  directives : ∀ d ∈ r.directives, ∀ t : Tools, t.Grounded S → ∀ id : Ident, id.pos.isSome = true →
    Grounds S (d.run t id) fun _ => True

/-- A closing tag is read where the third token starts its name. -/
theorem ParseM.closingTag_grounded {S : Text → Prop} {s : State} (hs : s.Grounded S) {lt slash name : Token}
    {ts : List Token} (hrest : s.stream.rest = lt :: slash :: name :: ts) (hname : name.continuesTagName = true) :
    EndsGrounded S ClosingTag.Grounded (closingTag s) := by
  have hpos : lt.pos.isSome = true := Token.ReadFrom.pos (hrest ▸ hs.tokens)
  have hrest' : (s.stream.skip 2).rest = name :: ts := by rw [Stream.rest_skip, hrest]; rfl
  have htokens : tagNameTokens (name :: ts) ≠ [] := by simp [tagNameTokens, hname]
  unfold closingTag
  rw [peek_bind, hrest, skip_bind, rest_bind, hrest']
  refine ((skip_grounds _).bind fun _ _ => ?_ : Grounds S _ _) _ (skip_grounds 2 s hs).1
  refine peek_grounds.bind fun gt _ => ?_
  split
  · exact .fail _ _
  · refine (skip_grounds _).bind fun _ _ => ?_
    split
    · exact .pure ⟨hpos, htokens⟩
    · exact .unexpected _ _

/-- After white space, the closing tag is read with the white space as text before it. -/
theorem ParseM.spacedClosingTag_grounded {S : Text → Prop} {s : State} (hs : s.Grounded S) {lt slash name : Token}
    {ts : List Token} (hrest : s.stream.rest = lt :: slash :: name :: ts) (hname : name.continuesTagName = true)
    (space : Text) : EndsGrounded S ClosingTag.ReadGrounded ((do
      emitText space lt.pos
      return some (← closingTag) : ParseM (Option ClosingTag)) s) := by
  have hpos : lt.pos.isSome = true := Token.ReadFrom.pos (hrest ▸ hs.tokens)
  have hpushed : (s.pushText lt.pos space).Grounded S := (emitText_grounds space hpos s hs).1
  have hrest' : (s.pushText lt.pos space).stream.rest = lt :: slash :: name :: ts := by
    rw [State.stream_pushText, hrest]
  rw [emitText_bind]
  exact (closingTag_grounded hpushed hrest' hname).bind fun c hc => .pure (.some hc)

namespace Registry
variable {S : Text → Prop} {r : Registry} (hr : r.Grounded S)
include hr

/-- The tags are left as they are. -/
theorem tagNodes_grounds {c : TagContext} (hn : AllGrounded S c.nodes)
    (hc : ∀ n, c.close = some n → n.Grounded S ∧ n.lists = []) : Grounds S (r.tagNodes c) (AllGrounded S) := by
  have hnone : r.tagHooks.filter (·.accepts c.name) = [] := by rw [hr.tagHooks]; rfl
  unfold tagNodes
  rw [hnone]
  refine .pure (hn.append (.of_leaves fun n hn => hc n ?_))
  simpa using hn

theorem elementNodes_grounds {c : ElementContext} (hc : AllGrounded S c.children) (hd : AllGrounded S c.default) :
    Grounds S (r.elementNodes c) (AllGrounded S) := by
  unfold elementNodes
  split
  · exact .pure hd
  · rename_i h hh
    have hm : h ∈ r.elementHooks := (List.mem_filter.mp (hh ▸ List.mem_singleton_self h)).1
    split
    · exact .throw _
    · exact .pure hd
    · rename_i ns hn
      exact (note_grounds _ _).bind fun _ _ => .pure (hr.elementHooks h hm c ns hc hn)
  · exact .fail _ _

variable {t : Tools} (ht : t.Grounded S)
include ht

theorem runDirective_grounds {d : Directive} (hd : d ∈ r.directives) {marker : Option Position}
    (hmarker : marker.isSome = true) {id : Ident} (hid : id.pos.isSome = true) :
    Grounds S (runDirective t d marker id) fun _ => True := by
  refine (skip_grounds _).bind fun _ _ => ?_
  refine (note_grounds _ _).bind fun _ _ => ?_
  refine (hr.directives d hd t ht id hid).bind fun out _ => ?_
  split
  · exact .pure trivial
  · exact .modify fun s hs => ⟨hs.tokens, hs.stop, hs.last, hs.sink, hs.injects, hs.cache⟩
  · refine (Tools.expressionFrom_grounds ht hid).bind fun ns hs => ?_
    exact emit_grounds (.single ⟨hmarker, trivial⟩ (by simpa [lists] using hs.1) rfl)

theorem afterMarker_grounds {marker : Option Position} (hmarker : marker.isSome = true) {next : Token}
    {ts : List Token} (hts : Token.ReadFrom S (next :: ts)) :
    Grounds S (r.afterMarker t marker next) fun _ => True := by
  have hwrite {ns : List Node} (hn : AllGrounded S ns) : Grounds S (emit [.write marker ns]) fun _ => True :=
    emit_grounds (.single ⟨hmarker, trivial⟩ (by simpa [lists] using hn) rfl)
  unfold afterMarker
  split
  · split
    · exact (skip_grounds _).bind fun _ _ => emitText_grounds _ hts.pos
    split
    · exact (Tools.expression_grounds ht).bind fun ns hs => hwrite hs.1
    · exact .unexpected _ _
  · split
    · rename_i d hd
      exact runDirective_grounds hr ht (List.mem_of_find?_eq_some hd) hmarker hts.pos
    · exact (Tools.expression_grounds ht).bind fun ns hs => hwrite hs.1
  · refine (skip_grounds _).bind fun _ _ => hwrite ?_
    exact AllGrounded.nil.leaf ⟨hts.pos, (hts.grounded (.head _)).quoted _ rfl⟩ rfl
  · split
    · refine (skip_grounds _).bind fun _ _ => ?_
      refine (Tools.region_grounds ht hts.pos hts.inner _).bind fun expr he => ?_
      exact .guard fun _ => hwrite he
    split
    · refine (skip_grounds _).bind fun _ _ => ?_
      refine (Tools.region_grounds ht hts.pos hts.inner _).bind fun nodes hn => ?_
      refine (emit_grounds hn).bind fun _ _ => ?_
      split
      · exact emit_grounds (AllGrounded.nil.leaf ⟨hts.pos, trivial⟩ rfl)
      · exact .pure trivial
    · exact .unexpected _ _

theorem marker_grounds {m : Token} (hm : m.pos.isSome = true) : Grounds S (r.marker t m) fun _ => True := by
  have hafter : Grounds S (r.gluedToMarker t m.pos) fun _ => True := by
    refine peek_grounds.bind fun next hnext => ?_
    split
    · exact .fail _ _
    · obtain ⟨ts, hts⟩ := hnext _ rfl
      refine .guard fun _ => ?_
      exact (setLast_grounds hts.pos).bind fun _ _ => afterMarker_grounds hr ht hm hts
  refine (skip_grounds _).bind fun _ _ => ?_
  refine Grounds.get.bind fun s _ => ?_
  split
  · exact emitText_grounds _ hm
  · split
    · exact (emitText_grounds _ hm).bind fun _ _ => hafter
    · exact hafter

theorem rawTextWithin_grounds {name : Text} (hname : r.isRawText name = true) (n : Nat) :
    Grounds S (r.rawTextWithin t name n) ClosingTag.ReadGrounded := by
  induction n with
  | zero => exact .throw _
  | succ n ih =>
    refine checkStop_grounds.bind fun _ _ s hs => ?_
    rw [rest_bind]
    cases hrest : s.stream.rest with
    | nil => exact ⟨hs, .none⟩
    | cons tok ts =>
      have hts : Token.ReadFrom S (tok :: ts) := hrest ▸ hs.tokens
      have hlast := (setLast_grounds hts.pos s hs).1
      dsimp only
      rw [setLast_bind]
      split
      · rename_i hclose
        rcases ts with _ | ⟨a, _ | ⟨b, us⟩⟩
        · simp [closesRawText] at hclose
        · simp [closesRawText] at hclose
        · simp only [closesRawText, Bool.and_eq_true] at hclose
          refine spacedClosingTag_grounded hlast hrest ?_ _
          exact hr.rawText name b us hname hts.tail.tail hclose.2.2
      split
      · exact ((marker_grounds hr ht hts.pos).bind fun _ _ => ih) _ hlast
      · exact ((skip_grounds _).bind fun _ _ => (emitText_grounds _ hts.pos).bind fun _ _ => ih) _ hlast

theorem children_grounds (name : Text) : Grounds S (r.children t name) fun (ns, closing) =>
    AllGrounded S ns ∧ ClosingTag.ReadGrounded closing := by
  have hcontent : Grounds S (r.content t name) ClosingTag.ReadGrounded := by
    unfold content
    split
    · rename_i hname
      exact rawTextWithin_grounds hr ht hname _
    · exact Tools.parse_grounds ht
  rw [children_eq]
  refine Grounds.get.bind fun outer ho => ?_
  refine Grounds.bind (.set ⟨ho.tokens, ho.stop, ho.last, .nil, ho.injects, ho.cache⟩) fun _ _ => ?_
  refine hcontent.bind fun closing hc => ?_
  refine Grounds.get.bind fun inner hi => ?_
  refine Grounds.bind (.set ⟨hi.tokens, hi.stop, hi.last, ho.sink, hi.injects, hi.cache⟩) fun _ _ => ?_
  exact .pure ⟨hi.sink, hc⟩

/-- An element is read where the second token starts its name. -/
theorem element_grounded {s : State} (hs : s.Grounded S) {lt : Punct} {name : Token} {ts : List Token}
    (hrest : s.stream.rest = .punct lt :: name :: ts) (hname : name.continuesTagName = true) :
    EndsGrounded S (fun _ => True) (r.element t lt s) := by
  have hts : Token.ReadFrom S (.punct lt :: name :: ts) := hrest ▸ hs.tokens
  have hlt : lt.pos.isSome = true := hts.pos
  have hfirst : name.pos.isSome = true := hts.tail.pos
  have hrest' : (s.stream.skip 1).rest = name :: ts := by rw [Stream.rest_skip, hrest]; rfl
  unfold element
  rw [skip_bind, rest_bind, hrest', show tagNameTokens (name :: ts) = name :: gluedTagName ts by
    simp [tagNameTokens, hname]]
  generalize gluedTagName ts = us
  refine ((skip_grounds _).bind fun _ _ => ?_ : Grounds S _ _) _ (skip_grounds 1 s hs).1
  refine (Tools.attributes_grounds ht _ _).bind fun read hread => ?_
  obtain ⟨reading, stop⟩ := read
  have hstart : AllGrounded S ((if r.isVoid (tagName (name :: us)) then Node.tagVoid (tagName (name :: us)) (name :: us)
      else .tagStart (tagName (name :: us)) (name :: us)) :: reading.nodes.reverse) := by
    split <;> exact hread.1.nodes.leaf ⟨hfirst, by simp [HasParts]⟩ rfl
  refine (tagNodes_grounds hr hstart ?_).bind fun opening hopen => ?_
  · rintro n ⟨⟩
    split
    · exact ⟨⟨hread.2, trivial⟩, rfl⟩
    · split <;> exact ⟨⟨hread.2, trivial⟩, rfl⟩
  split
  · exact emit_grounds hopen
  · refine (children_grounds hr ht _).bind fun read hc => ?_
    obtain ⟨children, closing⟩ := read
    dsimp only
    split
    · exact .fail _ _
    · rename_i c
      have hclosing : c.Grounded := hc.2 c rfl
      have hstop : AllGrounded S [.tagEnd c.pos c.name c.tokens] :=
        AllGrounded.nil.leaf ⟨hclosing.pos, hclosing.tokens⟩ rfl
      refine .guard fun _ => ?_
      refine (tagNodes_grounds hr hstop (by simp)).bind fun stop hstop => ?_
      refine (elementNodes_grounds hr hc.1 ?_).bind fun nodes hn => emit_grounds hn
      exact (hopen.append hc.1).append hstop

theorem tagEntry_grounded {s : State} (hs : s.Grounded S) {lt : Punct} {ts : List Token}
    (hrest : s.stream.rest = .punct lt :: ts) :
    EndsGrounded S ClosingTag.ReadGrounded (r.tagEntry t lt ts s) := by
  have hts : Token.ReadFrom S (.punct lt :: ts) := hrest ▸ hs.tokens
  have hlt : lt.pos.isSome = true := hts.pos
  unfold tagEntry
  rw [get_bind]
  dsimp only
  split
  · rename_i hclose
    obtain ⟨hslash, hname⟩ := Bool.and_eq_true_iff.mp hclose
    obtain ⟨slash, hhead, -⟩ := (Option.any_eq_true _ _).mp hslash
    obtain ⟨name, hsecond, hstarts⟩ := (Option.any_eq_true _ _).mp hname
    obtain ⟨us, rfl⟩ := List.head?_eq_some_iff.mp (Option.filter_eq_some_iff.mp hhead).1
    obtain ⟨vs, rfl⟩ := List.head?_eq_some_iff.mp hsecond
    have hcontinues : name.continuesTagName = true :=
      Token.continuesTagName_of_starts (Bool.and_eq_true_iff.mp hstarts).2
    split
    · exact spacedClosingTag_grounded hs hrest hcontinues _
    · exact (closingTag_grounded hs hrest hcontinues).bind fun c hc => .pure (.some hc)
  split
  · exact ((comment_grounds hlt).bind fun _ _ => .pure .none) s hs
  split
  · rename_i hname
    obtain ⟨name, hhead, hstarts⟩ := (Option.any_eq_true _ _).mp hname
    obtain ⟨us, rfl⟩ := List.head?_eq_some_iff.mp (Option.filter_eq_some_iff.mp hhead).1
    have helement {u : State} (hu : u.Grounded S) (hrest : u.stream.rest = .punct lt :: name :: us) :
        EndsGrounded S ClosingTag.ReadGrounded ((do
          r.element t lt
          return none : ParseM (Option ClosingTag)) u) :=
      (element_grounded hr ht hu hrest (Token.continuesTagName_of_starts hstarts)).bind fun _ _ =>
        .pure .none
    split
    · rw [emitText_bind]
      exact helement (emitText_grounds lt.space hlt s hs).1 (by rw [State.stream_pushText, hrest])
    · exact helement hs hrest
  · refine ((skip_grounds _).bind fun _ _ => ?_ : Grounds S _ _) s hs
    have hnode : AllGrounded S [.punct lt] := AllGrounded.nil.leaf ⟨hlt, trivial⟩ rfl
    split
    · exact (emitText_grounds _ hlt).bind fun _ _ => .pure .none
    · exact (emit_grounds hnode).bind fun _ _ => .pure .none

omit hr ht in
theorem eq_of_action_literal {markup statement : Bool} {tok : Token} {l : Literal}
    (h : tok.action markup statement = .literal l) : tok = .literal l := by
  cases tok with
  | literal =>
    simp only [Token.action] at h
    repeat' split at h
    all_goals cases h
    all_goals rfl
  | _ =>
    simp only [Token.action] at h
    repeat' split at h
    all_goals cases h

omit hr in
theorem goOn_grounds : Grounds S (goOn t) ClosingTag.ReadGrounded := by
  refine Grounds.get.bind fun s hs => ?_
  split
  · refine Grounds.bind (.set ⟨hs.tokens, hs.stop, hs.last, hs.sink, hs.injects, hs.cache⟩) fun _ _ => ?_
    exact .pure .none
  · exact ht.resume

theorem turn_grounds : Grounds S (r.turn t) ClosingTag.ReadGrounded := by
  refine checkStop_grounds.bind fun _ _ s hs => ?_
  rw [rest_bind]
  cases hrest : s.stream.rest with
  | nil => exact ⟨hs, .none⟩
  | cons tok ts =>
    have hts : Token.ReadFrom S (tok :: ts) := hrest ▸ hs.tokens
    have hlast := (setLast_grounds hts.pos s hs).1
    have hgo {m : ParseM Unit} (hm : Grounds S m fun _ => True) :
        Grounds S (do m; goOn t) ClosingTag.ReadGrounded :=
      hm.bind fun _ _ => goOn_grounds ht
    dsimp only
    rw [setLast_bind, get_bind]
    generalize haction : tok.action _ _ = action
    cases action with
    | text => exact ((skip_grounds _).bind fun _ _ => hgo (emitText_grounds _ hts.pos)) _ hlast
    | group f cs =>
      obtain rfl := Token.eq_of_action_group haction
      exact ((skip_grounds _).bind fun _ _ => hgo (Tools.group_grounds ht hts.pos hts.inner)) _ hlast
    | marker => exact hgo (marker_grounds hr ht hts.pos) _ hlast
    | tag lt =>
      obtain rfl := Token.eq_of_action_tag haction
      refine (tagEntry_grounded hr ht hlast hrest).bind fun closing hc => ?_
      split
      · exact .pure hc
      · exact goOn_grounds ht
    | identifier => exact ((Tools.expression_grounds ht).bind fun ns hn => hgo (emit_grounds hn.1)) _ hlast
    | literal l =>
      obtain rfl := eq_of_action_literal haction
      have hnode : AllGrounded S [.literal l] :=
        AllGrounded.nil.leaf ⟨hts.pos, (hts.grounded (.head _)).quoted l rfl⟩ rfl
      exact ((skip_grounds _).bind fun _ _ => hgo (emit_grounds hnode)) _ hlast
    | code p =>
      obtain rfl := Token.eq_of_action_code haction
      exact hgo (Tools.code_grounds ht hts.pos) _ hlast
    | stop => exact ⟨hlast, .none⟩

omit ht in
/-- Every run of the loop leads from grounded states to grounded states. -/
theorem loop_grounds {settings : Settings} {embed : Text → Text → ParseM Fragment}
    (hembed : ∀ file src, S src → Grounds S (embed file src) (Fragment.Grounded S))
    (hfiles : ∀ files path src, settings.files = some files → files.read path = .ok src → S src) (n : Nat) :
    Grounds S (r.loop settings embed n) ClosingTag.ReadGrounded := by
  induction n with
  | zero => exact .throw _
  | succ n ih => exact turn_grounds hr ⟨ih, hembed, hfiles⟩

end Registry

/-! ## From a source to its nodes -/

/-- At the beginning of a file nothing is read yet, and the cached contents are grounded. -/
theorem State.grounded_start {S : Text → Prop} {src : Text} {tokens : List Token} {trailing : Text} (hsrc : S src)
    (hlex : Token.lex src = .ok (tokens, trailing)) (path : Text) (includers : List Text) {w : World}
    (hw : w.Grounded S) :
    State.Grounded S { world := w, path, includers, stream := .ofTokens tokens } := by
  have hread : Token.ReadFrom S tokens := ⟨src, tokens, trailing, hsrc, hlex, .whole⟩
  refine ⟨hread, ?_, rfl, .nil, by simp, hw⟩
  simp only [Stream.ofTokens]
  split
  · rename_i t ht
    exact (hread.grounded (List.mem_of_getLast? ht)).pos
  · rfl

/-- What is cached is grounded at the end, and so is what is answered. -/
def WorldM.EndsGrounded {α : Type} (S : Text → Prop) (Q : α → Prop) : EStateM.Result Error World α → Prop
  | .ok a w => w.Grounded S ∧ Q a
  | .error _ w => w.Grounded S

theorem ParseM.ofWorld_grounds {α : Type} {S : Text → Prop} {Q : α → Prop} {m : WorldM α}
    (h : ∀ w, w.Grounded S → WorldM.EndsGrounded S Q (m w)) : Grounds S (ofWorld m) Q := by
  intro s hs
  have hm := h s.world hs.cache
  unfold ofWorld
  split
  · rename_i hres
    rw [hres] at hm
    exact ⟨⟨hs.tokens, hs.stop, hs.last, hs.sink, hs.injects, hm.1⟩, hm.2⟩
  · rename_i hres
    rw [hres] at hm
    exact ⟨hs.tokens, hs.stop, hs.last, hs.sink, hs.injects, hm⟩

namespace Registry
variable {S : Text → Prop} {r : Registry} (hr : r.Grounded S) {settings : Settings}
  (hfiles : ∀ files path src, settings.files = some files → files.read path = .ok src → S src)
include hr hfiles

/-- The run over a source goes through grounded states only, if the contents embedded in it are grounded. -/
theorem readTokens_grounded {embed : Text → Text → ParseM Fragment}
    (hembed : ∀ file src, S src → Grounds S (embed file src) (Fragment.Grounded S)) (n : Nat) {src : Text}
    {tokens : List Token} {trailing : Text} (hsrc : S src) (hlex : Token.lex src = .ok (tokens, trailing))
    (path : Text) (includers : List Text) {w : World} (hw : w.Grounded S) :
    EndsGrounded S (fun _ => True) (r.readTokens settings embed n tokens trailing
      { world := w, path, includers, stream := .ofTokens tokens }) := by
  have hstart := State.grounded_start hsrc hlex path includers hw
  refine (checkStop_grounds.bind fun _ _ => ?_ : Grounds S _ _) _ hstart
  refine (loop_grounds hr hembed hfiles n).bind fun closing _ => ?_
  split
  · exact .fail _ _
  · exact emitText_grounds _ hstart.stop

omit hr hfiles in
/-- What is embedded is grounded, if parsing a source gives grounded nodes. -/
theorem embedIn_grounds {n : Nat}
    (h : ∀ includers path src w, S src → w.Grounded S →
      WorldM.EndsGrounded S (fun (ns, d) => AllGrounded S ns ∧ [] ∉ d.injects)
        (r.parseSource settings n includers path src w))
    (includers : List Text) (path file : Text) {src : Text} (hsrc : S src) :
    Grounds S (r.embedIn settings n includers path file src) (Fragment.Grounded S) :=
  (ofWorld_grounds fun w hw => h _ _ src w hsrc hw).bind fun _ hparsed => .pure ⟨hparsed.1, hparsed.2⟩

theorem parseSource_grounded (n : Nat) (includers : List Text) (path src : Text) (w : World) (hsrc : S src)
    (hw : w.Grounded S) :
    WorldM.EndsGrounded S (fun (ns, d) => AllGrounded S ns ∧ [] ∉ d.injects)
      (r.parseSource settings n includers path src w) := by
  induction n generalizing includers path src w with
  | zero => exact hw
  | succ n ih =>
    cases hlex : Token.lex src with
    | error e =>
      unfold parseSource
      rw [hlex]
      exact hw
    | ok p =>
      obtain ⟨tokens, trailing⟩ := p
      have hrun := readTokens_grounded hr hfiles (fun file data hdata => embedIn_grounds ih includers path file hdata)
        (r.turns w tokens) hsrc hlex path includers hw
      rw [parseSource_lexed r settings n includers path src w hlex]
      unfold WorldM.ofParse
      cases hres : r.readTokens settings (r.embedIn settings n includers path) (r.turns w tokens) tokens trailing
          { world := w, path, includers, stream := .ofTokens tokens } with
      | ok u s =>
        rw [hres] at hrun
        exact ⟨hrun.1.cache, hrun.1.sink, hrun.1.injects⟩
      | error e s =>
        rw [hres] at hrun
        exact hrun.cache

end Registry
end Atmark
