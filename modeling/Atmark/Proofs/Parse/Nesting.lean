import Atmark.Proofs.Node.Nesting
import Atmark.Proofs.Parse.Returns

/-! Parsing keeps regions well nested. The loop is entered again for every region, so each reading step
is looked at on the assumption that going on keeps the invariant (`Tools.Sound`). -/
namespace Atmark
open Node ParseM

/-- Cached nodes are whole. -/
def World.Sound (w : World) : Prop := ∀ c, w.cache = some c → ∀ e ∈ c.entries, Whole e.2.nodes

/-- The nodes of the region read so far are well nested, and cached nodes are whole. -/
structure State.Sound (s : State) : Prop where
  sink : WellNested s.sink.reverse
  cache : s.world.Sound

/-- Going on and including a template keep regions well nested. -/
structure Tools.Sound (t : Tools) : Prop where
  resume : Keeps State.Sound t.resume fun _ => True
  embed : ∀ file src, Keeps State.Sound (t.embed file src) fun f => Whole f.nodes

theorem State.Sound.ofNodes : OfNodes State.Sound := by
  intro s s' h hs hc
  refine ⟨hs ▸ h.sink, ?_⟩
  unfold World.Sound
  rw [hc]
  exact h.cache

open State.Sound

theorem ParseM.emit_sound {ns : List Node} (h : Whole ns) :
    Keeps State.Sound (emit ns) fun _ => True :=
  .modify fun s hs => by
    obtain ⟨_, _, hf⟩ := s.foldl_push_frame ns
    exact ⟨State.foldl_push_wellNested hs.sink h, by rw [hf]; exact hs.cache⟩

theorem ParseM.emitText_sound (t : Text) (pos : Option Position) :
    Keeps State.Sound (emitText t pos) fun _ => True :=
  emit_sound (.leaf (n := .text pos t) rfl rfl .nil)

namespace Tools
variable {t : Tools} (ht : t.Sound)
include ht

theorem parse_sound : Keeps State.Sound t.parse fun _ => True :=
  ofNodes.checkStop.bind fun _ _ => ht.resume

theorem region_sound (f : Frame) (ts : List Token) (markup : Bool) :
    Keeps State.Sound (t.region f ts markup) WellNested := by
  refine Keeps.get.bind fun outer ho => ?_
  refine Keeps.bind (.set ⟨WellNested.nil, ho.cache⟩) fun _ _ => ?_
  refine (parse_sound ht).bind fun closing _ => ?_
  refine Keeps.get.bind fun inner hi => ?_
  refine Keeps.bind (.set ⟨ho.sink, hi.cache⟩) fun _ _ => ?_
  split
  · exact .fail _ _
  · exact .pure hi.sink

theorem group_sound (f : Frame) (ts : List Token) :
    Keeps State.Sound (t.group f ts) fun _ => True := by
  refine Keeps.get.bind fun s _ => ?_
  split
  · refine (emitText_sound _ _).bind fun _ _ => ?_
    refine Keeps.get.bind fun outer ho => ?_
    refine Keeps.bind (.set ⟨ho.sink, ho.cache⟩) fun _ _ => ?_
    refine (parse_sound ht).bind fun closing _ => ?_
    refine Keeps.bind (.modify fun s hs => ⟨hs.sink, hs.cache⟩) fun _ _ => ?_
    split
    · exact .fail _ _
    · exact emitText_sound _ _
  · refine (region_sound ht _ _ _).bind fun children hc => ?_
    exact emit_sound (.cons rfl (by simpa [lists] using hc) .nil)

theorem code_sound (p : Punct) : Keeps State.Sound (t.code p) fun _ => True := by
  have hp : Keeps State.Sound (emit [.punct p]) fun _ => True := emit_sound (.leaf rfl rfl .nil)
  refine (ofNodes.skip _).bind fun _ _ => ?_
  refine Keeps.rest.bind fun ts _ => ?_
  split
  · split
    · refine (ofNodes.skip _).bind fun _ _ => ?_
      refine (region_sound ht _ _ _).bind fun children hc => ?_
      exact emit_sound (.cons rfl (by simpa [lists] using hc) .nil)
    · exact hp
  · exact hp

end Tools

/-! ## Expressions and attributes -/

/-- Nodes that can stand as an expression. -/
def Node.Expression (ns : List Node) : Prop := WellNested ns ∧ ns ≠ []

namespace Tools
variable {t : Tools} (ht : t.Sound)
include ht

theorem selectors_sound (ts : List Token) : Keeps State.Sound (t.selectors ts) WellNested := by
  have hnone : Keeps State.Sound (pure []) WellNested := .pure .nil
  fun_induction Tools.selectors t ts with
  | case1 => exact ofNodes.checkStop.bind fun _ _ => hnone
  | case2 tok ts ihDot ihPath ihGroup =>
    have hselect (p : Punct) (n : Ident) (k : Nat) {us : List Token}
        (ih : Keeps State.Sound (t.selectors us) WellNested) :
        Keeps State.Sound (do
          skip k
          return .punct p :: .ident n :: (← t.selectors us)) WellNested :=
      (ofNodes.skip _).bind fun _ _ => ih.bind fun _ hs =>
        .pure ((hs.leaf rfl rfl rfl).leaf rfl rfl rfl)
    refine ofNodes.checkStop.bind fun _ _ => ?_
    split
    · exact hnone
    refine (ofNodes.setLast _).bind fun _ _ => ?_
    split
    · split
      · split
        · split
          · exact hselect _ _ _ ihDot
          · exact hnone
        · exact hnone
      · split
        · split
          · exact hnone
          · split
            · split
              · exact hselect _ _ _ ihPath
              · exact hnone
            · exact hnone
        · split
          · split
            · exact .fail _ _
            · exact hnone
          · exact hnone
    · split
      · exact hnone
      · refine (ofNodes.skip _).bind fun _ _ => ?_
        refine (region_sound ht _ _ _).bind fun children hc => ?_
        refine ihGroup.bind fun _ hs => ?_
        exact .pure (hs.cons rfl rfl (by simpa [lists] using hc))
    · exact hnone

theorem expressionFrom_sound (id : Ident) :
    Keeps State.Sound (t.expressionFrom id) Expression := by
  refine Keeps.rest.bind fun ts _ => ?_
  refine (selectors_sound ht ts).bind fun ns hs => ?_
  exact .pure ⟨hs.leaf rfl rfl rfl, by simp⟩

theorem expression_sound : Keeps State.Sound t.expression Expression := by
  have halone (p : Punct) : Keeps State.Sound (do skip 1; return [.punct p]) Expression :=
    (ofNodes.skip _).bind fun _ _ => .pure ⟨WellNested.nil.leaf rfl rfl rfl, by simp⟩
  refine Keeps.rest.bind fun ts _ => ?_
  split
  · exact Keeps.get.bind fun _ _ => .fail _ _
  · exact (ofNodes.skip _).bind fun _ _ => expressionFrom_sound ht _
  · split
    · split
      · split
        · split
          · refine (ofNodes.skip _).bind fun _ _ => ?_
            refine (expressionFrom_sound ht _).bind fun ns hs => ?_
            exact .pure ⟨hs.1.leaf rfl rfl rfl, by simp⟩
          · exact halone _
        · exact halone _
      · exact .unexpected _ _
    · exact .unexpected _ _

theorem valueExpression_sound (marker : Punct) (attr : Text) :
    Keeps State.Sound (t.valueExpression marker attr) Expression := by
  refine (ofNodes.skip _).bind fun _ _ => ?_
  refine Keeps.peek.bind fun next _ => ?_
  split
  · exact .fail _ _
  · refine .guard fun _ => ?_
    split
    · exact expression_sound ht
    · exact (ofNodes.skip _).bind fun _ _ => .pure ⟨WellNested.nil.leaf rfl rfl rfl, by simp⟩
    · split
      · refine (ofNodes.skip _).bind fun _ _ => ?_
        refine (region_sound ht _ _ _).bind fun expr he => ?_
        exact .guard fun hne => .pure ⟨he, by simpa using hne⟩
      · exact .unexpected _ _
    · split
      · exact expression_sound ht
      · exact .unexpected _ _

theorem attrValue_sound (tag attr : Text) (tok : Token) (ts : List Token) :
    Keeps State.Sound (t.attrValue tag attr tok ts)
      fun v => forms v.fixed v.expr = 1 ∧ WellNested v.expr := by
  have hrun : Keeps State.Sound (unquotedValue tok ts) fun v => forms v [] = 1 :=
    (ofNodes.skip _).bind fun _ _ => .pure rfl
  unfold attrValue
  split
  · refine (ofNodes.skip _).bind fun _ _ => ?_
    split
    · exact .pure ⟨rfl, .nil⟩
    · exact .pure ⟨rfl, .nil⟩
  · exact hrun.bind fun _ hv => .pure ⟨hv, .nil⟩
  · split
    · split
      · exact .fail _ _
      · exact (ofNodes.skip _).bind fun _ _ => .pure ⟨rfl, .nil⟩
    · split
      · exact hrun.bind fun _ hv => .pure ⟨hv, .nil⟩
      · split
        · refine (valueExpression_sound ht _ _).bind fun expr he => ?_
          refine (ofNodes.note _ _).bind fun _ _ => ?_
          have hne : expr.isEmpty = false := by simpa using he.2
          exact .pure ⟨by simp [forms, hne], he.1⟩
        · split
          · exact .fail _ _
          · exact .unexpected _ _
  · exact .unexpected _ _

end Tools

/-- The attributes read so far are complete. -/
structure TagReading.Sound (r : TagReading) : Prop where
  attributes : Attributes r.nodes.reverse
  inside : HoldWellNested r.nodes.reverse

namespace TagReading.Sound
variable {r : TagReading} (hr : r.Sound)
include hr

theorem withoutValue : r.withoutValue.Sound := by
  unfold TagReading.withoutValue
  split
  · exact hr
  · constructor
    · rw [List.reverse_cons]
      exact hr.attributes.append (.name .nil)
    · rw [List.reverse_cons]
      exact hr.inside.append (.of_lists_nil (by simp [keyNode, lists]))

theorem withValue {v : AttrValue} (hf : forms v.fixed v.expr = 1) (he : WellNested v.expr)
    (k : AttrKey) (equals : Option Position) : (r.withValue k equals v).Sound := by
  have h : (r.withValue k equals v).nodes.reverse =
      r.nodes.reverse ++ [keyNode k, .attrEquals equals, v.node] := by
    simp [TagReading.withValue]
  constructor
  · rw [h]
    exact hr.attributes.append (.value hf .nil)
  · rw [h]
    exact hr.inside.append (by simpa [HoldWellNested, keyNode, AttrValue.node, lists] using he)

theorem startKey (tok : Token) : (r.startKey tok).Sound := by
  have h := hr.withoutValue
  unfold TagReading.startKey
  dsimp only
  split <;> exact ⟨h.attributes, h.inside⟩

theorem addKey (tok : Token) : (r.addKey tok).Sound := by
  unfold TagReading.addKey
  split
  · split
    · exact ⟨hr.attributes, hr.inside⟩
    · exact hr.startKey tok
  · exact hr.startKey tok

end TagReading.Sound

namespace Tools
variable {t : Tools} (ht : t.Sound)
include ht

theorem attributesWithin_sound (lt : Option Position) (tag : Text) (n : Nat) {r : TagReading}
    (hr : r.Sound) (focus : TagFocus) :
    Keeps State.Sound (t.attributesWithin lt tag n r focus) fun (r, _) => r.Sound := by
  induction n generalizing r focus with
  | zero => exact .throw _
  | succ n ih =>
    have hgo {r : TagReading} (k : Nat) (hr : r.Sound) (focus : TagFocus) :
        Keeps State.Sound (do skip k; t.attributesWithin lt tag n r focus) fun (r, _) => r.Sound :=
      (ofNodes.skip k).bind fun _ _ => ih hr focus
    refine ofNodes.checkStop.bind fun _ _ => ?_
    refine Keeps.rest.bind fun ts _ => ?_
    split
    · exact .fail _ _
    · refine (ofNodes.setLast _).bind fun _ _ => ?_
      split
      · refine (attrValue_sound ht _ _ _ _).bind fun v hv => ?_
        exact ih (hr.withValue hv.1 hv.2 _ _) .name
      · split
        · split
          · exact (ofNodes.skip _).bind fun _ _ => .pure hr.withoutValue
          split
          · split
            · exact (ofNodes.skip _).bind fun _ _ => .pure hr.withoutValue
            · exact .fail _ _
          split
          · split
            · exact .fail _ _
            · exact hgo _ hr _
          split
          · exact hgo _ (hr.addKey _) _
          · exact .unexpected _ _
        · exact hgo _ (hr.addKey _) _
        · split
          · exact hgo _ (hr.startKey _) _
          · exact .unexpected _ _
        · exact .unexpected _ _

theorem attributes_sound (lt : Option Position) (tag : Text) :
    Keeps State.Sound (t.attributes lt tag) fun (r, _) => r.Sound := by
  have hr : TagReading.Sound {} := ⟨.nil, by simp [HoldWellNested]⟩
  exact Keeps.rest.bind fun _ _ => attributesWithin_sound ht lt tag _ hr _

end Tools

theorem ParseM.comment_sound (lt : Punct) : Keeps State.Sound (comment lt) fun _ => True := by
  refine Keeps.get.bind fun _ _ => ?_
  refine (ofNodes.skip _).bind fun _ _ => ?_
  refine Keeps.rest.bind fun ts _ => ?_
  refine (ofNodes.commentFrom _ ts).bind fun _ _ => ?_
  exact emitText_sound _ _

/-! ## Elements -/

/-- No hook replaces tags, the hooks of elements answer with whole nodes, and the directives keep
regions well nested. -/
structure Registry.Sound (r : Registry) : Prop where
  tagHooks : r.tagHooks = []
  elementHooks : ∀ h ∈ r.elementHooks, ∀ c ns, WellNested c.children →
    h.run c = .ok (some ns) → Whole ns
  directives : ∀ d ∈ r.directives, ∀ t : Tools, t.Sound → ∀ id,
    Keeps State.Sound (d.run t id) fun _ => True

namespace Registry
variable {r : Registry} (hr : r.Sound)
include hr

theorem tagNodes_sound (c : TagContext) :
    Keeps State.Sound (r.tagNodes c) fun ns => ns = c.default := by
  have h : r.tagHooks.filter (·.accepts c.name) = [] := by rw [hr.tagHooks]; rfl
  unfold tagNodes
  rw [h]
  exact .pure rfl

theorem elementNodes_sound {c : ElementContext} (hc : WellNested c.children)
    (hd : Whole c.default) : Keeps State.Sound (r.elementNodes c) Whole := by
  unfold elementNodes
  split
  · exact .pure hd
  · rename_i h hh
    have hm : h ∈ r.elementHooks := (List.mem_filter.mp (hh ▸ List.mem_singleton_self h)).1
    split
    · exact .throw _
    · exact .pure hd
    · rename_i ns hn
      exact (ofNodes.note _ _).bind fun _ _ => .pure (hr.elementHooks h hm c ns hc hn)
  · exact .fail _ _

variable {t : Tools} (ht : t.Sound)
include ht

theorem runDirective_sound {d : Directive} (hd : d ∈ r.directives) (marker : Option Position)
    (id : Ident) : Keeps State.Sound (runDirective t d marker id) fun _ => True := by
  refine (ofNodes.skip _).bind fun _ _ => ?_
  refine (ofNodes.note _ _).bind fun _ _ => ?_
  refine (hr.directives d hd t ht id).bind fun out _ => ?_
  split
  · exact .pure trivial
  · exact .modify fun s hs => ⟨hs.sink, hs.cache⟩
  · refine (Tools.expressionFrom_sound ht id).bind fun ns hs => ?_
    exact emit_sound (.cons rfl (by simpa [lists] using hs.1) .nil)

theorem afterMarker_sound (marker : Option Position) (next : Token) :
    Keeps State.Sound (r.afterMarker t marker next) fun _ => True := by
  have hwrite {ns : List Node} (hn : WellNested ns) :
      Keeps State.Sound (emit [.write marker ns]) fun _ => True :=
    emit_sound (.cons rfl (by simpa [lists] using hn) .nil)
  unfold afterMarker
  split
  · split
    · exact (ofNodes.skip _).bind fun _ _ => emitText_sound _ _
    split
    · exact (Tools.expression_sound ht).bind fun ns hs => hwrite hs.1
    · exact .unexpected _ _
  · split
    · rename_i d hd
      exact runDirective_sound hr ht (List.mem_of_find?_eq_some hd) marker _
    · exact (Tools.expression_sound ht).bind fun ns hs => hwrite hs.1
  · exact (ofNodes.skip _).bind fun _ _ => hwrite (WellNested.nil.leaf rfl rfl rfl)
  · split
    · refine (ofNodes.skip _).bind fun _ _ => ?_
      refine (Tools.region_sound ht _ _ _).bind fun expr he => ?_
      exact .guard fun _ => hwrite he
    split
    · refine (ofNodes.skip _).bind fun _ _ => ?_
      refine (Tools.region_sound ht _ _ _).bind fun nodes hn => ?_
      refine (emit_sound hn.whole).bind fun _ _ => ?_
      split
      · exact emit_sound (.leaf rfl rfl .nil)
      · exact .pure trivial
    · exact .unexpected _ _

theorem gluedToMarker_sound (marker : Option Position) :
    Keeps State.Sound (r.gluedToMarker t marker) fun _ => True := by
  refine Keeps.peek.bind fun next _ => ?_
  split
  · exact .fail _ _
  · refine .guard fun _ => ?_
    exact (ofNodes.setLast _).bind fun _ _ => afterMarker_sound hr ht _ _

theorem marker_sound (m : Token) : Keeps State.Sound (r.marker t m) fun _ => True := by
  have hafter := gluedToMarker_sound hr ht m.pos
  refine (ofNodes.skip _).bind fun _ _ => ?_
  refine Keeps.get.bind fun s _ => ?_
  split
  · exact emitText_sound _ _
  · split
    · exact (emitText_sound _ _).bind fun _ _ => hafter
    · exact hafter

theorem rawTextWithin_sound (name : Text) (n : Nat) :
    Keeps State.Sound (r.rawTextWithin t name n) fun _ => True := by
  induction n with
  | zero => exact .throw _
  | succ n ih =>
    refine ofNodes.checkStop.bind fun _ _ => ?_
    refine Keeps.rest.bind fun ts _ => ?_
    split
    · exact .pure trivial
    · refine (ofNodes.setLast _).bind fun _ _ => ?_
      split
      · refine (emitText_sound _ _).bind fun _ _ => ?_
        exact ofNodes.closingTag.bind fun _ _ => .pure trivial
      split
      · exact (marker_sound hr ht _).bind fun _ _ => ih
      · refine (ofNodes.skip _).bind fun _ _ => ?_
        exact (emitText_sound _ _).bind fun _ _ => ih

theorem children_sound (name : Text) :
    Keeps State.Sound (r.children t name) fun (ns, _) => WellNested ns := by
  have hcontent : Keeps State.Sound (r.content t name) fun _ => True := by
    unfold content
    split
    · exact rawTextWithin_sound hr ht name _
    · exact Tools.parse_sound ht
  rw [children_eq]
  refine Keeps.get.bind fun outer ho => ?_
  refine Keeps.bind (.set ⟨WellNested.nil, ho.cache⟩) fun _ _ => ?_
  refine hcontent.bind fun closing _ => ?_
  refine Keeps.get.bind fun inner hi => ?_
  exact Keeps.bind (.set ⟨ho.sink, hi.cache⟩) fun _ _ => .pure hi.sink

theorem element_sound (lt : Punct) : Keeps State.Sound (r.element t lt) fun _ => True := by
  refine (ofNodes.skip _).bind fun _ _ => ?_
  refine Keeps.rest.bind fun ts _ => ?_
  refine (ofNodes.skip _).bind fun _ _ => ?_
  refine (Tools.attributes_sound ht _ _).bind fun ⟨reading, stop⟩ hread => ?_
  refine (tagNodes_sound hr _).bind fun opening ho => ?_
  subst ho
  have hinside (a b : Node) (ha : a.lists = []) (hb : b.lists = []) :
      HoldWellNested (a :: reading.nodes.reverse ++ [b]) := by
    have hstart : HoldWellNested [a] := .of_lists_nil (by simpa using ha)
    have hstop : HoldWellNested [b] := .of_lists_nil (by simpa using hb)
    exact (hstart.append hread.inside).append hstop
  split
  · rename_i hend
    refine emit_sound ?_
    by_cases hv : r.isVoid (tagName (tagNameTokens ts)) = true
    · simp only [hv, if_true]
      exact ⟨.void hread.attributes .nil, hinside _ _ rfl rfl⟩
    · have hs : stop.slash.isSome = true := by simpa [hv] using hend
      simp only [hv, hs, if_true]
      exact ⟨.selfClosed hread.attributes .nil, hinside _ _ rfl rfl⟩
  · rename_i hend
    simp only [Bool.or_eq_true, not_or] at hend
    simp only [hend]
    refine (children_sound hr ht _).bind fun ⟨children, closing⟩ hc => ?_
    dsimp only
    split
    · exact .fail _ _
    · rename_i c
      refine .guard fun hname => ?_
      refine (tagNodes_sound hr _).bind fun closed hclosed => ?_
      subst hclosed
      refine (elementNodes_sound hr hc ?_).bind fun nodes hn => emit_sound hn
      have hfold : Text.sameFold c.name (tagName (tagNameTokens ts)) = true := by simpa using hname
      constructor
      · simpa [ElementContext.default, TagContext.default] using
          Nested.element hread.attributes hc.whole.nested hfold .nil
      · refine ((hinside _ _ rfl rfl).append hc.whole.inside).append (.of_lists_nil ?_)
        simp [TagContext.default, lists]

theorem tagEntry_sound (lt : Punct) (ts : List Token) :
    Keeps State.Sound (r.tagEntry t lt ts) fun _ => True := by
  have hclosing : Keeps State.Sound (return some (← closingTag)) fun _ => True :=
    ofNodes.closingTag.bind fun _ _ => .pure trivial
  have helement : Keeps State.Sound (do
      r.element t lt
      return (none : Option ClosingTag)) fun _ => True :=
    (element_sound hr ht lt).bind fun _ _ => .pure trivial
  refine Keeps.get.bind fun s _ => ?_
  dsimp only
  split
  · split
    · exact (emitText_sound _ _).bind fun _ _ => hclosing
    · exact hclosing
  split
  · exact (comment_sound lt).bind fun _ _ => .pure trivial
  split
  · split
    · exact (emitText_sound _ _).bind fun _ _ => helement
    · exact helement
  · refine (ofNodes.skip _).bind fun _ _ => ?_
    split
    · exact (emitText_sound _ _).bind fun _ _ => .pure trivial
    · exact (emit_sound (.leaf rfl rfl .nil)).bind fun _ _ => .pure trivial

/-! ## The loop -/

omit hr in
theorem goOn_sound : Keeps State.Sound (goOn t) fun _ => True := by
  refine Keeps.get.bind fun s hs => ?_
  split
  · exact Keeps.bind (.set ⟨hs.sink, hs.cache⟩) fun _ _ => .pure trivial
  · exact ht.resume

theorem turn_sound : Keeps State.Sound (r.turn t) fun _ => True := by
  have hgo : ∀ {m : ParseM Unit}, Keeps State.Sound m (fun _ => True) →
      Keeps State.Sound (do m; goOn t) fun _ => True :=
    fun hm => hm.bind fun _ _ => goOn_sound ht
  refine ofNodes.checkStop.bind fun _ _ => ?_
  refine Keeps.rest.bind fun ts _ => ?_
  split
  · exact .pure trivial
  · refine (ofNodes.setLast _).bind fun _ _ => ?_
    refine Keeps.get.bind fun s _ => ?_
    split
    · exact (ofNodes.skip _).bind fun _ _ => hgo (emitText_sound _ _)
    · exact (ofNodes.skip _).bind fun _ _ => hgo (Tools.group_sound ht _ _)
    · exact hgo (marker_sound hr ht _)
    · refine (tagEntry_sound hr ht _ _).bind fun closing _ => ?_
      split
      · exact .pure trivial
      · exact goOn_sound ht
    · refine (Tools.expression_sound ht).bind fun ns hn => ?_
      exact hgo (emit_sound hn.1.whole)
    · exact (ofNodes.skip _).bind fun _ _ => hgo (emit_sound (.leaf rfl rfl .nil))
    · exact hgo (Tools.code_sound ht _)
    · exact .pure trivial

omit ht in
/-- The loop keeps regions well nested, however many turns it takes. -/
theorem loop_sound (settings : Settings) {embed : Text → Text → ParseM Fragment}
    (he : ∀ file src, Keeps State.Sound (embed file src) fun f => Whole f.nodes) (n : Nat) :
    Keeps State.Sound (r.loop settings embed n) fun _ => True := by
  induction n with
  | zero => exact .throw _
  | succ n ih => exact turn_sound hr ⟨ih, he⟩

omit ht in
/-- A source that is parsed gives well nested nodes, whatever it includes. -/
theorem parseSource_sound (settings : Settings) (n : Nat) {includers : List Text} {path src : Text}
    {w w' : World} {ns : List Node} {d : Declarations} (hw : w.Sound)
    (h : r.parseSource settings n includers path src w = .ok (ns, d) w') :
    WellNested ns ∧ w'.Sound := by
  induction n generalizing includers path src w w' ns d with
  | zero => cases h
  | succ n ih =>
    obtain ⟨tokens, trailing, budget, s, -, hloop, rfl, rfl⟩ := parseSource_returns h
    have hembed : ∀ file src, Keeps State.Sound (r.embedIn settings n includers path file src)
        fun f => Whole f.nodes := by
      intro file src s f s' hs hf
      obtain ⟨⟨nodes, declared⟩, s₁, hp, hret⟩ := hf.bind
      obtain ⟨w₁, hw₀, rfl⟩ := hp.ofWorld
      obtain ⟨rfl, rfl⟩ := hret.pure
      obtain ⟨hnodes, hw₁⟩ := ih hs.cache hw₀
      exact ⟨⟨hs.sink, hw₁⟩, hnodes.whole⟩
    obtain ⟨hs, -⟩ := loop_sound hr settings hembed _ _ _ _ (by exact ⟨.nil, hw⟩) hloop
    exact ⟨State.foldl_push_wellNested hs.sink (.leaf (n := .text _ trailing) rfl rfl .nil), hs.cache⟩

end Registry
end Atmark
