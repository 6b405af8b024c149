import Atmark.Proofs.Parse.Returns

/-! Regions grow. Reading never takes nodes out of the region it fills: expressions, attributes, groups
of code and the children of elements are read into regions of their own, and what comes of them is added.
So whatever adding nodes does not break is kept to the end of a region (`loop_grows`). -/
namespace Atmark
open ParseM

namespace ParseM

/-- The invariant says nothing but about the nodes of the region. -/
def OfSink (P : State → Prop) : Prop := ∀ s s', P s → s'.sink = s.sink → P s'

/-- Nor do nodes that are added break it. -/
structure Growing (P : State → Prop) : Prop where
  ofSink : OfSink P
  push : ∀ s n, P s → P (s.push n)

theorem OfSink.ofNodes {P : State → Prop} (hP : OfSink P) : OfNodes P :=
  fun s s' h hs _ => hP s s' h hs

theorem Growing.ofNodes {P : State → Prop} (hP : Growing P) : OfNodes P := hP.ofSink.ofNodes

end ParseM

/-! ## What is read into regions of its own -/

section OfSink
variable {P : State → Prop} (hP : OfSink P)
include hP

namespace Tools
variable {t : Tools}

theorem region_keeps (f : Frame) (ts : List Token) (markup : Bool) :
    Keeps P (t.region f ts markup) fun _ => True := by
  intro s ns s' hs h
  obtain ⟨outer, s₁, hget, h₁⟩ := h.bind
  obtain ⟨rfl, rfl⟩ := hget.get
  obtain ⟨_, s₂, -, h₂⟩ := h₁.bind
  obtain ⟨closing, s₃, -, h₃⟩ := h₂.bind
  obtain ⟨inner, s₄, -, h₄⟩ := h₃.bind
  obtain ⟨_, s₅, hset, h₅⟩ := h₄.bind
  have hs₅ := hset.set
  cases closing with
  | some c => exact h₅.fail.elim
  | none =>
    obtain ⟨-, rfl⟩ := h₅.pure
    exact ⟨hP _ _ hs (by rw [hs₅]), trivial⟩

theorem selectors_keeps (ts : List Token) : Keeps P (t.selectors ts) fun _ => True := by
  have hnone : Keeps P (pure []) fun _ : List Node => True := .pure trivial
  fun_induction Tools.selectors t ts with
  | case1 => exact hP.ofNodes.checkStop.bind fun _ _ => hnone
  | case2 tok ts ihDot ihPath ihGroup =>
    have hselect (p : Punct) (n : Ident) (k : Nat) {us : List Token}
        (ih : Keeps P (t.selectors us) fun _ => True) :
        Keeps P (do
          skip k
          return .punct p :: .ident n :: (← t.selectors us)) fun _ : List Node => True :=
      (hP.ofNodes.skip _).bind fun _ _ => ih.bind fun _ _ => .pure trivial
    refine hP.ofNodes.checkStop.bind fun _ _ => ?_
    split
    · exact hnone
    refine (hP.ofNodes.setLast _).bind fun _ _ => ?_
    split
    · split
      · split
        · split
          · exact hselect _ _ _ ihDot
          · exact hnone
        · exact hnone
      · split
        · split
          · exact hnone
          · split
            · split
              · exact hselect _ _ _ ihPath
              · exact hnone
            · exact hnone
        · split
          · split
            · exact .fail _ _
            · exact hnone
          · exact hnone
    · split
      · exact hnone
      · refine (hP.ofNodes.skip _).bind fun _ _ => ?_
        refine (region_keeps hP _ _ _).bind fun _ _ => ?_
        exact ihGroup.bind fun _ _ => .pure trivial
    · exact hnone

theorem expressionFrom_keeps (id : Ident) : Keeps P (t.expressionFrom id) fun _ => True := by
  refine Keeps.rest.bind fun ts _ => ?_
  exact (selectors_keeps hP ts).bind fun _ _ => .pure trivial

theorem expression_keeps : Keeps P t.expression fun _ => True := by
  have halone (p : Punct) : Keeps P (do skip 1; return [.punct p]) fun _ : List Node => True :=
    (hP.ofNodes.skip _).bind fun _ _ => .pure trivial
  refine Keeps.rest.bind fun ts _ => ?_
  split
  · exact Keeps.get.bind fun _ _ => .fail _ _
  · exact (hP.ofNodes.skip _).bind fun _ _ => expressionFrom_keeps hP _
  · split
    · split
      · split
        · split
          · refine (hP.ofNodes.skip _).bind fun _ _ => ?_
            exact (expressionFrom_keeps hP _).bind fun _ _ => .pure trivial
          · exact halone _
        · exact halone _
      · exact .unexpected _ _
    · exact .unexpected _ _

theorem valueExpression_keeps (marker : Punct) (attr : Text) :
    Keeps P (t.valueExpression marker attr) fun _ => True := by
  refine (hP.ofNodes.skip _).bind fun _ _ => ?_
  refine Keeps.peek.bind fun next _ => ?_
  split
  · exact .fail _ _
  · refine .guard fun _ => ?_
    split
    · exact expression_keeps hP
    · exact (hP.ofNodes.skip _).bind fun _ _ => .pure trivial
    · split
      · refine (hP.ofNodes.skip _).bind fun _ _ => ?_
        refine (region_keeps hP _ _ _).bind fun _ _ => ?_
        exact .guard fun _ => .pure trivial
      · exact .unexpected _ _
    · split
      · exact expression_keeps hP
      · exact .unexpected _ _

theorem attrValue_keeps (tag attr : Text) (tok : Token) (ts : List Token) :
    Keeps P (t.attrValue tag attr tok ts) fun _ => True := by
  have hrun : Keeps P (unquotedValue tok ts) fun _ => True :=
    (hP.ofNodes.skip _).bind fun _ _ => .pure trivial
  unfold attrValue
  split
  · refine (hP.ofNodes.skip _).bind fun _ _ => ?_
    split <;> exact .pure trivial
  · exact hrun.bind fun _ _ => .pure trivial
  · split
    · split
      · exact .fail _ _
      · exact (hP.ofNodes.skip _).bind fun _ _ => .pure trivial
    split
    · exact hrun.bind fun _ _ => .pure trivial
    split
    · refine (valueExpression_keeps hP _ _).bind fun _ _ => ?_
      exact (hP.ofNodes.note _ _).bind fun _ _ => .pure trivial
    split
    · exact .fail _ _
    · exact .unexpected _ _
  · exact .unexpected _ _

theorem attributesWithin_keeps (lt : Option Position) (tag : Text) (n : Nat) (r : TagReading)
    (focus : TagFocus) : Keeps P (t.attributesWithin lt tag n r focus) fun _ => True := by
  induction n generalizing r focus with
  | zero => exact .throw _
  | succ n ih =>
    have hgo (k : Nat) (r : TagReading) (focus : TagFocus) :
        Keeps P (do skip k; t.attributesWithin lt tag n r focus) fun _ => True :=
      (hP.ofNodes.skip k).bind fun _ _ => ih r focus
    refine hP.ofNodes.checkStop.bind fun _ _ => ?_
    refine Keeps.rest.bind fun ts _ => ?_
    split
    · exact .fail _ _
    · refine (hP.ofNodes.setLast _).bind fun _ _ => ?_
      split
      · exact (attrValue_keeps hP _ _ _ _).bind fun _ _ => ih _ .name
      · split
        · split
          · exact (hP.ofNodes.skip _).bind fun _ _ => .pure trivial
          split
          · split
            · exact (hP.ofNodes.skip _).bind fun _ _ => .pure trivial
            · exact .fail _ _
          split
          · split
            · exact .fail _ _
            · exact hgo _ _ _
          split
          · exact hgo _ _ _
          · exact .unexpected _ _
        · exact hgo _ _ _
        · split
          · exact hgo _ _ _
          · exact .unexpected _ _
        · exact .unexpected _ _

theorem attributes_keeps (lt : Option Position) (tag : Text) :
    Keeps P (t.attributes lt tag) fun _ => True :=
  Keeps.rest.bind fun _ _ => attributesWithin_keeps hP lt tag _ _ _

end Tools

/-- The children of an element are read into a region of their own. -/
theorem Registry.children_keeps (r : Registry) (t : Tools) (name : Text) :
    Keeps P (r.children t name) fun _ => True := by
  rw [children_eq]
  intro s c s' hs h
  obtain ⟨outer, s₁, hget, h₁⟩ := h.bind
  obtain ⟨rfl, rfl⟩ := hget.get
  obtain ⟨_, s₂, -, h₂⟩ := h₁.bind
  obtain ⟨closing, s₃, -, h₃⟩ := h₂.bind
  obtain ⟨inner, s₄, -, h₄⟩ := h₃.bind
  obtain ⟨_, s₅, hset, h₅⟩ := h₄.bind
  have hs₅ := hset.set
  obtain ⟨-, rfl⟩ := h₅.pure
  exact ⟨hP _ _ hs (by rw [hs₅]), trivial⟩

end OfSink

/-! ## What is added -/

section Growing
variable {P : State → Prop} (hP : Growing P)
include hP

namespace ParseM

theorem emit_grows (ns : List Node) : Keeps P (emit ns) fun _ => True := by
  refine .modify fun s hs => ?_
  induction ns generalizing s with
  | nil => exact hs
  | cons n ns ih => exact ih (s.push n) (hP.push s n hs)

theorem emitText_grows (t : Text) (pos : Option Position) :
    Keeps P (emitText t pos) fun _ => True :=
  .modify fun s hs => hP.push s (.text pos t) hs

theorem comment_grows (lt : Punct) : Keeps P (comment lt) fun _ => True := by
  refine Keeps.get.bind fun _ _ => ?_
  refine (hP.ofNodes.skip _).bind fun _ _ => ?_
  refine Keeps.rest.bind fun ts _ => ?_
  refine (hP.ofNodes.commentFrom _ ts).bind fun _ _ => ?_
  exact emitText_grows hP _ _

end ParseM

namespace Tools
variable {t : Tools} (ht : Keeps P t.resume fun _ => True)
include ht

theorem group_grows (f : Frame) (ts : List Token) : Keeps P (t.group f ts) fun _ => True := by
  refine Keeps.get.bind fun s _ => ?_
  split
  · refine (emitText_grows hP _ _).bind fun _ _ => ?_
    refine Keeps.get.bind fun outer ho => ?_
    refine Keeps.bind (.set (hP.ofSink _ _ ho rfl)) fun _ _ => ?_
    refine Keeps.bind (hP.ofNodes.checkStop.bind fun _ _ => ht) fun closing _ => ?_
    refine Keeps.bind (.modify fun s hs => hP.ofSink _ _ hs rfl) fun _ _ => ?_
    split
    · exact .fail _ _
    · exact emitText_grows hP _ _
  · exact (region_keeps hP.ofSink _ _ _).bind fun _ _ => emit_grows hP _

omit ht in
theorem code_grows (p : Punct) : Keeps P (t.code p) fun _ => True := by
  refine (hP.ofNodes.skip _).bind fun _ _ => ?_
  refine Keeps.rest.bind fun ts _ => ?_
  split
  · split
    · refine (hP.ofNodes.skip _).bind fun _ _ => ?_
      exact (region_keeps hP.ofSink _ _ _).bind fun _ _ => emit_grows hP _
    · exact emit_grows hP _
  · exact emit_grows hP _

end Tools

namespace Registry
variable {r : Registry} {t : Tools}

theorem tagNodes_keeps (c : TagContext) : Keeps P (r.tagNodes c) fun _ => True := by
  unfold tagNodes
  split
  · exact .pure trivial
  · split
    · exact .throw _
    · exact .pure trivial
    · exact (hP.ofNodes.note _ _).bind fun _ _ => .pure trivial
  · exact .fail _ _

theorem elementNodes_keeps (c : ElementContext) : Keeps P (r.elementNodes c) fun _ => True := by
  unfold elementNodes
  split
  · exact .pure trivial
  · split
    · exact .throw _
    · exact .pure trivial
    · exact (hP.ofNodes.note _ _).bind fun _ _ => .pure trivial
  · exact .fail _ _

theorem element_grows (lt : Punct) : Keeps P (r.element t lt) fun _ => True := by
  refine (hP.ofNodes.skip _).bind fun _ _ => ?_
  refine Keeps.rest.bind fun ts _ => ?_
  refine (hP.ofNodes.skip _).bind fun _ _ => ?_
  refine (Tools.attributes_keeps hP.ofSink _ _).bind fun _ _ => ?_
  refine (tagNodes_keeps hP _).bind fun opening _ => ?_
  split
  · exact emit_grows hP _
  · refine (children_keeps hP.ofSink r t _).bind fun ⟨children, closing⟩ _ => ?_
    dsimp only
    split
    · exact .fail _ _
    · refine .guard fun _ => ?_
      refine (tagNodes_keeps hP _).bind fun _ _ => ?_
      exact (elementNodes_keeps hP _).bind fun _ _ => emit_grows hP _

theorem tagEntry_grows (lt : Punct) (ts : List Token) :
    Keeps P (r.tagEntry t lt ts) fun _ => True := by
  have hclosing : Keeps P (return some (← closingTag)) fun _ => True :=
    hP.ofNodes.closingTag.bind fun _ _ => .pure trivial
  have helement : Keeps P (do
      r.element t lt
      return (none : Option ClosingTag)) fun _ => True :=
    (element_grows hP lt).bind fun _ _ => .pure trivial
  refine Keeps.get.bind fun s _ => ?_
  dsimp only
  split
  · split
    · exact (emitText_grows hP _ _).bind fun _ _ => hclosing
    · exact hclosing
  split
  · exact (comment_grows hP lt).bind fun _ _ => .pure trivial
  split
  · split
    · exact (emitText_grows hP _ _).bind fun _ _ => helement
    · exact helement
  · refine (hP.ofNodes.skip _).bind fun _ _ => ?_
    split
    · exact (emitText_grows hP _ _).bind fun _ _ => .pure trivial
    · exact (emit_grows hP _).bind fun _ _ => .pure trivial

variable (hd : ∀ d ∈ r.directives, ∀ id, Keeps P (d.run t id) fun _ => True)
include hd

theorem afterMarker_grows (marker : Option Position) (next : Token) :
    Keeps P (r.afterMarker t marker next) fun _ => True := by
  have hexpression : Keeps P (do emit [.write marker (← t.expression)]) fun _ => True :=
    (Tools.expression_keeps hP.ofSink).bind fun _ _ => emit_grows hP _
  unfold afterMarker
  split
  · split
    · exact (hP.ofNodes.skip _).bind fun _ _ => emitText_grows hP _ _
    split
    · exact hexpression
    · exact .unexpected _ _
  · split
    · rename_i d hfind
      refine (hP.ofNodes.skip _).bind fun _ _ => ?_
      refine (hP.ofNodes.note _ _).bind fun _ _ => ?_
      refine (hd d (List.mem_of_find?_eq_some hfind) _).bind fun out _ => ?_
      split
      · exact .pure trivial
      · exact .modify fun s hs => hP.ofSink _ _ hs rfl
      · exact (Tools.expressionFrom_keeps hP.ofSink _).bind fun _ _ => emit_grows hP _
    · exact hexpression
  · exact (hP.ofNodes.skip _).bind fun _ _ => emit_grows hP _
  · split
    · refine (hP.ofNodes.skip _).bind fun _ _ => ?_
      refine (Tools.region_keeps hP.ofSink _ _ _).bind fun expr _ => ?_
      exact .guard fun _ => emit_grows hP _
    split
    · refine (hP.ofNodes.skip _).bind fun _ _ => ?_
      refine (Tools.region_keeps hP.ofSink _ _ _).bind fun nodes _ => ?_
      refine (emit_grows hP _).bind fun _ _ => ?_
      split
      · exact emit_grows hP _
      · exact .pure trivial
    · exact .unexpected _ _

theorem gluedToMarker_grows (marker : Option Position) :
    Keeps P (r.gluedToMarker t marker) fun _ => True := by
  refine Keeps.peek.bind fun next _ => ?_
  split
  · exact .fail _ _
  · refine .guard fun _ => ?_
    exact (hP.ofNodes.setLast _).bind fun _ _ => afterMarker_grows hP hd _ _

theorem marker_grows (m : Token) : Keeps P (r.marker t m) fun _ => True := by
  have hafter := gluedToMarker_grows (r := r) (t := t) hP hd m.pos
  refine (hP.ofNodes.skip _).bind fun _ _ => ?_
  refine Keeps.get.bind fun s _ => ?_
  split
  · exact emitText_grows hP _ _
  · split
    · exact (emitText_grows hP _ _).bind fun _ _ => hafter
    · exact hafter

theorem rawTextWithin_grows (name : Text) (n : Nat) :
    Keeps P (r.rawTextWithin t name n) fun _ => True := by
  induction n with
  | zero => exact .throw _
  | succ n ih =>
    refine hP.ofNodes.checkStop.bind fun _ _ => ?_
    refine Keeps.rest.bind fun ts _ => ?_
    split
    · exact .pure trivial
    · refine (hP.ofNodes.setLast _).bind fun _ _ => ?_
      split
      · refine (emitText_grows hP _ _).bind fun _ _ => ?_
        exact hP.ofNodes.closingTag.bind fun _ _ => .pure trivial
      split
      · exact (marker_grows hP hd _).bind fun _ _ => ih
      · refine (hP.ofNodes.skip _).bind fun _ _ => ?_
        exact (emitText_grows hP _ _).bind fun _ _ => ih

variable (ht : Keeps P t.resume fun _ => True)
include ht

omit hd in
theorem goOn_grows : Keeps P (goOn t) fun _ => True := by
  refine Keeps.get.bind fun s hs => ?_
  split
  · exact Keeps.bind (.set (hP.ofSink _ _ hs rfl)) fun _ _ => .pure trivial
  · exact ht

theorem turn_grows : Keeps P (r.turn t) fun _ => True := by
  have hgo : ∀ {m : ParseM Unit}, Keeps P m (fun _ => True) →
      Keeps P (do m; goOn t) fun _ => True :=
    fun hm => hm.bind fun _ _ => goOn_grows hP ht
  refine hP.ofNodes.checkStop.bind fun _ _ => ?_
  refine Keeps.rest.bind fun ts _ => ?_
  split
  · exact .pure trivial
  · refine (hP.ofNodes.setLast _).bind fun _ _ => ?_
    refine Keeps.get.bind fun s _ => ?_
    split
    · exact (hP.ofNodes.skip _).bind fun _ _ => hgo (emitText_grows hP _ _)
    · exact (hP.ofNodes.skip _).bind fun _ _ => hgo (Tools.group_grows hP ht _ _)
    · exact hgo (marker_grows hP hd _)
    · refine (tagEntry_grows hP _ _).bind fun closing _ => ?_
      split
      · exact .pure trivial
      · exact goOn_grows hP ht
    · exact (Tools.expression_keeps hP.ofSink).bind fun _ _ => hgo (emit_grows hP _)
    · exact (hP.ofNodes.skip _).bind fun _ _ => hgo (emit_grows hP _)
    · exact hgo (Tools.code_grows hP _)
    · exact .pure trivial

omit hd ht in
/-- The loop keeps what adding nodes does not break, if the directives do. -/
theorem loop_grows (settings : Settings) {embed : Text → Text → ParseM Fragment}
    (he : ∀ file src, Keeps P (embed file src) fun _ => True)
    (hd : ∀ d ∈ r.directives, ∀ t : Tools, (∀ file src, Keeps P (t.embed file src) fun _ => True) →
      ∀ id, Keeps P (d.run t id) fun _ => True)
    (n : Nat) : Keeps P (r.loop settings embed n) fun _ => True := by
  induction n with
  | zero => exact .throw _
  | succ n ih => exact turn_grows hP (fun d hmem id => hd d hmem _ he id) ih

omit hd ht in
/-- An included template is parsed in a file of its own. -/
theorem embedIn_keeps (settings : Settings) (n : Nat) (includers : List Text)
    (path file src : Text) : Keeps P (r.embedIn settings n includers path file src) fun _ => True := by
  intro s f s' hs h
  obtain ⟨_, s₁, hp, hret⟩ := h.bind
  obtain ⟨w, -, rfl⟩ := hp.ofWorld
  obtain ⟨-, rfl⟩ := hret.pure
  exact ⟨hP.ofSink _ _ hs rfl, trivial⟩

end Registry
end Growing

end Atmark
