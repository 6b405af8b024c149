import Atmark.Proofs.Parse.Seam

/-! Over the seam of two sources. Elements, markers and the loop of the second run follow those of the first
one, if the directives and the hooks of the registry do; and at the end of the first tokens the second run goes
on with its loop where the first one has ended (`Seam.loop_goes`). -/
namespace Atmark
open Node ParseM

/-- What a text does to the nodes depends on nothing else of the state. -/
theorem State.pushText_apart {s u : State} (hsink : u.sink = s.sink) (htrim : u.trimLine = s.trimLine)
    (pos : Option Position) (t : Text) : u.pushText pos t =
      { u with sink := (s.pushText pos t).sink, trimLine := (s.pushText pos t).trimLine } := by
  unfold pushText
  rw [hsink, htrim]
  generalize (if s.trimLine then trimText t else (t, false)) = p
  obtain ⟨trimmed, trimLine⟩ := p
  dsimp only
  split
  · rfl
  · cases s.sink with
    | nil => rfl
    | cons n ns => cases n <;> rfl

namespace Seam

/-- The tags are the same but for positions. -/
structure SameTag (c c' : TagContext) : Prop where
  name : c'.name = c.name
  kind : c'.isOpening = c.isOpening ∧ c'.isVoid = c.isVoid ∧ c'.isSelfClosed = c.isSelfClosed
  attributes : c'.attributes.map Attribute.placeless = c.attributes.map Attribute.placeless
  nodes : SameNodes c.nodes c'.nodes
  close : c'.close.map Node.placeless = c.close.map Node.placeless

/-- The elements are the same but for positions. -/
structure SameElement (c c' : ElementContext) : Prop where
  name : c'.name = c.name
  attributes : c'.attributes.map Attribute.placeless = c.attributes.map Attribute.placeless
  start : SameNodes c.start c'.start
  children : SameNodes c.children c'.children
  stop : SameNodes c.stop c'.stop
  environment : c'.environment = c.environment

end Seam

/-- The directive does the same somewhere else, and never ends the group or file that it stands in. -/
def Directive.Moves (d : Directive) : Prop :=
  ∀ (P : Seam) (loop : Nat → ParseM (Option ClosingTag)) (t t' : Tools), Seam.Uses loop t t' →
    ∀ (id : Ident) (pos : Option Position), id.pos.isSome = true → pos.isSome = true →
      P.Follows (d.run t id) (d.run t' { id with pos }) fun a b => b = a ∧ a ≠ .leave

/-- The directives and the hooks do the same somewhere else. -/
structure Registry.Moves (r : Registry) : Prop where
  directives : ∀ d ∈ r.directives, d.Moves
  tagNodes : ∀ (P : Seam) (c c' : TagContext), Seam.SameTag c c' →
    P.Follows (r.tagNodes c) (r.tagNodes c') Seam.SameNodes
  elementNodes : ∀ (P : Seam) (c c' : ElementContext), Seam.SameElement c c' →
    P.Follows (r.elementNodes c) (r.elementNodes c') Seam.SameNodes

namespace Seam
open Registry
variable {P : Seam} {r : Registry} {loop : Nat → ParseM (Option ClosingTag)} {t t' : Tools} {ts us : List Token}
variable (hr : r.Moves) (ht : Uses loop t t')

/-! ## Markers -/

include ht in
theorem expressionWrite_follows (marker marker' : Option Position) :
    P.Follows (do emit [.write marker (← t.expression)]) (do emit [.write marker' (← t'.expression)])
      fun _ _ => True := by
  refine (expression_follows ht).bind fun ns ns' hns => emit_follows ?_
  rw [SameNodes] at hns
  simp only [placelessAll, placeless, hns]

include hr ht in
/-- A directive runs right after its name in both runs. -/
theorem runDirective_from {d : Directive} (hd : d ∈ r.directives) (marker marker' : Option Position) {id : Ident}
    {pos : Option Position} (hid : id.pos.isSome = true) (hpos : pos.isSome = true) :
    P.From (.ident id :: ts) (.ident { id with pos } :: us) (runDirective t d marker id)
      (runDirective t' d marker' { id with pos }) fun _ _ => True := by
  refine .skip (by simp) (Follows.start ?_)
  refine (note_follows _ _ _ _).bind fun _ _ _ => ?_
  refine (hr.directives d hd P loop t t' ht id pos hid hpos).bind fun out out' hout => ?_
  obtain ⟨rfl, hleave⟩ := hout
  cases out' with
  | next => exact .pure trivial
  | leave => exact (hleave rfl).elim
  | expression =>
    refine (expressionFrom_follows ht id pos).bind fun ns ns' hns => emit_follows ?_
    rw [SameNodes] at hns
    simp only [placelessAll, placeless, hns]

include hr ht in
theorem afterMarker_from {next next' : Token} (hnext : Token.Same next next')
    (hts : Token.AllPlaced (next :: ts)) (hus : Token.AllPlaced (next' :: us)) (marker marker' : Option Position) :
    P.From (next :: ts) (next' :: us) (r.afterMarker t marker next) (r.afterMarker t' marker' next')
      fun _ _ => True := by
  cases hnext.moved with
  | ident id pos =>
    unfold afterMarker
    dsimp only
    cases hd : r.directive? id.name with
    | none => exact (expressionWrite_follows ht marker marker').start
    | some d => exact runDirective_from hr ht (List.mem_of_find?_eq_some hd) marker marker' hts.head hus.head
  | literal l pos =>
    exact .skip (by simp) (Follows.start (emit_follows (by simp only [placelessAll, placeless])))
  | punct p pos =>
    unfold afterMarker
    dsimp only
    split
    · exact .skip (by simp) (Follows.start (emitText_follows _ _ _))
    split
    · exact (expressionWrite_follows ht marker marker').start
    · exact Follows.unexpected.start
  | group f pos hds =>
    have hgroups : Groups f _ { f with pos } _ := ⟨⟨pos, rfl⟩, hds, hts.group (.head _), hus.group (.head _)⟩
    unfold afterMarker
    dsimp only
    split
    · refine .skip (by simp) (Follows.start ?_)
      refine (region_follows ht hgroups false).bind fun ns ns' hns => ?_
      refine .guard (fun hc => by rwa [hns.isEmpty] at hc) fun _ => emit_follows ?_
      rw [SameNodes] at hns
      simp only [placelessAll, placeless, hns]
    split
    · refine .skip (by simp) (Follows.start ?_)
      refine (region_follows ht hgroups false).bind fun ns ns' hns => ?_
      refine (emit_follows hns).bind fun _ _ _ => ?_
      rw [hns.isEmpty]
      split
      · exact emit_follows (by simp only [placelessAll, placeless])
      · exact .pure trivial
    · exact Follows.unexpected.start

include hr ht in
theorem gluedToMarker_follows (marker marker' : Option Position) :
    P.Follows (r.gluedToMarker t marker) (r.gluedToMarker t' marker') fun _ _ => True := by
  refine .ofRest fun ts us h hts hus => .peek ?_
  cases ts with
  | nil => exact Follows.fail.start
  | cons next ts =>
    obtain ⟨next', us, rfl, hnext, -⟩ := h.cons
    refine .guard (fun hc => by rwa [hnext.glued] at hc) fun _ => ?_
    exact .setLast (afterMarker_from hr ht hnext hts hus marker marker')

/-! ## The token ahead -/

/-- The white space before a token counts in markup. -/
def spaceBefore (s : State) (tok : Token) : Text := if s.markup then tok.space else []

/-- The next token is the same in both runs but for the white space before it. Behind it the runs are alike, and
they write the same for that white space. -/
structure Near (P : Seam) (tok tok' : Token) (ts us : List Token) (s s' : State) : Prop where
  rest : s.stream.rest = tok :: ts ∧ s'.stream.rest = tok' :: us
  same : Token.Shifted tok tok'
  placed : Token.AllPlaced (tok :: ts) ∧ Token.AllPlaced (tok' :: us)
  markup : s'.markup = s.markup
  behind : P.afresh.Alike { s with stream := s.stream.skip 1, sink := [], trimLine := false }
    { s' with stream := s'.stream.skip 1, sink := [], trimLine := false }
  space : ∀ pos pos' : Option Position,
    P.Level (s.pushText pos (spaceBefore s tok)).sink (s'.pushText pos' (spaceBefore s' tok')).sink ∧
      (s'.pushText pos' (spaceBefore s' tok')).trimLine = (s.pushText pos (spaceBefore s tok)).trimLine

/-- They write the same with any text after that white space, which is the same in code. -/
structure Ahead (P : Seam) (tok tok' : Token) (ts us : List Token) (s s' : State) : Prop
    extends P.Near tok tok' ts us s s' where
  code : s.markup = false → tok'.space = tok.space
  word : (tok'.glued && s'.sink.head?.any Node.endsWithWord) = (tok.glued && s.sink.head?.any Node.endsWithWord)
  text : ∀ (x : Text) (pos pos' : Option Position),
    P.Level (s.pushText pos (spaceBefore s tok ++ x)).sink (s'.pushText pos' (spaceBefore s' tok' ++ x)).sink ∧
      (s'.pushText pos' (spaceBefore s' tok' ++ x)).trimLine = (s.pushText pos (spaceBefore s tok ++ x)).trimLine

/-- A token of two runs that are alike. -/
theorem Alike.ahead {s s' : State} {tok : Token} (hs : P.Alike s s') (hrest : s.stream.rest = tok :: ts) :
    ∃ tok' us, P.Ahead tok tok' ts us s s' ∧ Token.Same tok tok' := by
  obtain ⟨tok', us, hrest', hsame, -⟩ := (hrest ▸ hs.stream).cons
  have hspace : spaceBefore s' tok' = spaceBefore s tok := by rw [spaceBefore, spaceBefore, hs.markup, hsame.space]
  have hpush (y : Text) (pos pos' : Option Position) := hs.foldl_push
    (show placelessAll [.text pos' y] = placelessAll [.text pos y] from rfl)
  refine ⟨tok', us, ⟨⟨⟨hrest, hrest'⟩, hsame.moved.shifted, ?_, hs.markup, ?_, ?_⟩, fun _ => hsame.space, ?_, ?_⟩, hsame⟩
  · exact ⟨hrest ▸ hs.placed.1, hrest' ▸ hs.placed.2⟩
  · have hskip := hs.skip (n := 1) (by simp [hrest])
    exact { hskip with sink := level_afresh.mpr rfl, trimLine := rfl }
  · intro pos pos'
    rw [hspace]
    exact ⟨(hpush _ pos pos').sink, (hpush _ pos pos').trimLine⟩
  · rw [hsame.glued, hs.endsWithWord]
  · intro x pos pos'
    rw [hspace]
    exact ⟨(hpush _ pos pos').sink, (hpush _ pos pos').trimLine⟩

/-- Only the white space before the token is written, and more tokens are passed over. -/
theorem Near.pass {tok tok' : Token} {s s' : State} (h : P.Near tok tok' ts us s s') (pos pos' : Option Position)
    {n : Nat} (hn : n ≤ ts.length) :
    P.Alike { s.pushText pos (spaceBefore s tok) with stream := (s.pushText pos (spaceBefore s tok)).stream.skip (n + 1) }
      { s'.pushText pos' (spaceBefore s' tok') with
        stream := (s'.pushText pos' (spaceBefore s' tok')).stream.skip (n + 1) } := by
  have hskip := h.behind.skip (n := n) (by simp [h.rest.1, hn])
  obtain ⟨hsink, htrim⟩ := h.space pos pos'
  obtain ⟨_, _, hs⟩ := s.pushText_frame pos (spaceBefore s tok)
  obtain ⟨_, _, hs'⟩ := s'.pushText_frame pos' (spaceBefore s' tok')
  rw [hs, hs'] at hsink htrim ⊢
  rw [Stream.skip_succ _ n, Stream.skip_succ _ n]
  exact { hskip with sink := hsink, trimLine := htrim }

namespace Ahead
variable {tok tok' : Token} {s s' : State} (h : P.Ahead tok tok' ts us s s')
include h

/-- Behind a text that is written where the tokens stand. -/
theorem push (u u' : State) (hu : P.afresh.Alike { u with sink := [], trimLine := false } { u' with sink := [], trimLine := false })
    (hkept : u.sink = s.sink ∧ u.trimLine = s.trimLine) (hkept' : u'.sink = s'.sink ∧ u'.trimLine = s'.trimLine)
    (x : Text) (pos pos' : Option Position) :
    P.Alike (u.pushText pos (spaceBefore s tok ++ x)) (u'.pushText pos' (spaceBefore s' tok' ++ x)) := by
  obtain ⟨hsink, htrim⟩ := h.text x pos pos'
  rw [State.pushText_apart hkept.1 hkept.2, State.pushText_apart hkept'.1 hkept'.2]
  exact { hu with sink := hsink, trimLine := htrim }

/-- A text right behind the token. -/
theorem pushText (x : Text) (pos pos' : Option Position) :
    P.Alike ({ s with stream := s.stream.skip 1 }.pushText pos (spaceBefore s tok ++ x))
      ({ s' with stream := s'.stream.skip 1 }.pushText pos' (spaceBefore s' tok' ++ x)) :=
  h.push { s with stream := s.stream.skip 1 } { s' with stream := s'.stream.skip 1 } h.behind
    ⟨rfl, rfl⟩ ⟨rfl, rfl⟩ x pos pos'

end Ahead

/-- In markup the white space before the token is written first. -/
theorem emitSpace_eq {s : State} (tok : Token) {m : ParseM α} :
    (if s.markup then emitText tok.space tok.pos >>= fun _ => m else m) s = m (s.pushText tok.pos (spaceBefore s tok)) := by
  rw [spaceBefore]
  split
  · rfl
  · rw [State.pushText_nil]

theorem marker_eq (r : Registry) (t : Tools) (m : Token) (s : State) : r.marker t m s =
    if s.markup && (m.glued && s.sink.head?.any Node.endsWithWord) then
      emitText (utf8 "@") m.pos { s with stream := s.stream.skip 1 }
    else r.gluedToMarker t m.pos ({ s with stream := s.stream.skip 1 }.pushText m.pos (spaceBefore s m)) := by
  have hspace := emitSpace_eq (s := { s with stream := s.stream.skip 1 }) m (m := r.gluedToMarker t m.pos)
  rw [← Bool.and_assoc, show spaceBefore s m = spaceBefore { s with stream := s.stream.skip 1 } m from rfl, ← hspace]
  exact apply_ite (fun f : ParseM Unit => f { s with stream := s.stream.skip 1 }) _ _ _

include hr ht in
/-- Before what is glued to a marker only the white space before the marker is written, if it is not part of a word. -/
theorem Near.marker_outcome {m u : Token} {s s' : State} (h : P.Near m u ts us s s')
    (hword : (s.markup && (m.glued && s.sink.head?.any Node.endsWithWord)) = false)
    (hword' : (s'.markup && (u.glued && s'.sink.head?.any Node.endsWithWord)) = false) :
    P.Outcome (fun _ _ => True) (r.marker t m s) (r.marker t' u s') := by
  have hpass := h.pass m.pos u.pos (n := 0) (Nat.zero_le _)
  rw [State.stream_pushText, State.stream_pushText, ← State.pushText_stream, ← State.pushText_stream] at hpass
  rw [marker_eq, marker_eq, hword, hword']
  exact gluedToMarker_follows hr ht m.pos u.pos _ _ hpass

include hr ht in
theorem marker_outcome {m u : Token} {s s' : State} (h : P.Ahead m u ts us s s') :
    P.Outcome (fun _ _ => True) (r.marker t m s) (r.marker t' u s') := by
  have hword : (s'.markup && (u.glued && s'.sink.head?.any Node.endsWithWord)) =
      (s.markup && (m.glued && s.sink.head?.any Node.endsWithWord)) := by
    rw [h.word, h.markup]
  cases hin : s.markup && (m.glued && s.sink.head?.any Node.endsWithWord) with
  | false => exact h.toNear.marker_outcome hr ht hin (hword.trans hin)
  | true =>
    rw [marker_eq, marker_eq, hword, hin]
    obtain ⟨-, hin⟩ := Bool.and_eq_true_iff.mp hin
    have hm : spaceBefore s m = [] := by
      simp [spaceBefore, List.isEmpty_iff.mp (Bool.and_eq_true_iff.mp hin).1]
    have hu : spaceBefore s' u = [] := by
      simp [spaceBefore, List.isEmpty_iff.mp (Bool.and_eq_true_iff.mp (h.word.trans hin)).1]
    have hat := h.pushText (utf8 "@") m.pos u.pos
    rw [hm, hu] at hat
    exact .ok trivial hat

include hr ht in
theorem marker_from {m u : Token} :
    P.From (m :: ts) (u :: us) (r.marker t m) (r.marker t' u) fun _ _ => True := by
  intro s s' hs hrest hrest'
  obtain ⟨u', us', h, -⟩ := hs.ahead hrest
  obtain ⟨rfl, rfl⟩ := List.cons.inj (h.rest.2.symm.trans hrest')
  exact marker_outcome hr ht h

/-! ## Elements -/

theorem closesRawText_along (h : Token.Alongside P.after ts us) (name : Text) :
    closesRawText name us = closesRawText name ts := by
  -- A closing tag has no white space in it, so more tokens do not complete one.
  cases ts with
  | nil =>
    rcases us with _ | ⟨u, _ | ⟨v, us⟩⟩
    · rfl
    · rfl
    · simp [closesRawText, h.not_glued P.parted]
  | cons a ts =>
    obtain ⟨a', us, rfl, ha, hrest⟩ := h.cons
    cases ts with
    | nil =>
      cases us with
      | nil => rfl
      | cons u us => simp [closesRawText, hrest.not_glued P.parted]
    | cons b ts =>
      obtain ⟨b', us, rfl, hb, -⟩ := hrest.cons
      simp only [closesRawText, ha.isPunct, ha.glued, hb.glued, hb.brief]

theorem exists_of_closesRawText {name : Text} (h : closesRawText name ts = true) : ∃ a b ts', ts = a :: b :: ts' := by
  rcases ts with _ | ⟨a, _ | ⟨b, ts⟩⟩
  · cases h
  · cases h
  · exact ⟨a, b, ts, rfl⟩

include hr ht in
theorem rawTextWithin_found (name : Text) (n n' : Nat) {s s' : State} (hs : P.Alike s s') :
    P.Found (r.rawTextWithin t name n s) (r.rawTextWithin t' name n' s') := by
  induction n generalizing n' s s' with
  | zero => exact Found.lax.error _ _ _
  | succ n ih =>
    cases n' with
    | zero => exact Found.lax.short _ _
    | succ n' =>
      have hstep (ts us : List Token) (h : Token.Alongside P.after ts us) :
          P.At ts us (r.rawTextWithin t name (n + 1)) (r.rawTextWithin t' name (n' + 1)) P.Found := by
        refine .checkStop (.rest ?_)
        cases ts with
        | nil => exact fun s s' _ _ _ => .inl ⟨s, rfl⟩
        | cons tok ts =>
          obtain ⟨u, us, rfl, hu, hrest⟩ := h.cons
          refine .setLast ?_
          rw [hu.isPunct, closesRawText_along hrest]
          split
          · rename_i hcloses
            obtain ⟨a, b, ts, rfl⟩ := exists_of_closesRawText (Bool.and_eq_true_iff.mp hcloses).2
            rw [hu.space]
            exact .emitText (.andThen Found.lax (closingTag_from) fun c c' hc s s' hs => .inr (.ok hc hs))
          rw [hu.isPunct, hrest.any_head P.parted (fun _ _ hs => hs.glued) fun _ hg => hg]
          split
          · exact .andThen Found.lax (marker_from hr ht) fun _ _ _ s s' hs => ih n' hs
          · rw [Token.sourceWithSpace_congr hu.single]
            exact .skip (by simp) (.emitText fun s s' hs _ _ => ih n' hs)
      exact hstep _ _ hs.stream s s' hs rfl rfl

include hr ht in
theorem content_found (name : Text) {s s' : State} (hs : P.Alike s s') :
    P.Found (r.content t name s) (r.content t' name s') := by
  unfold content
  split
  · exact rawTextWithin_found hr ht name _ _ hs
  · exact (parse_goes ht hs).found

include hr ht in
/-- The children of an element whose closing tag the first run finds. -/
theorem children_found (name : Text) {s s' : State} (hs : P.Alike s s') :
    (∃ ns u, r.children t name s = .ok (ns, none) u) ∨
      P.Outcome (fun a b => SameNodes a.1 b.1 ∧ SameEnd a.2 b.2) (r.children t name s) (r.children t' name s') := by
  have hinner : P.afresh.Alike { s with sink := [], markup := true, atStart := s.atStatementStart }
      { s' with sink := [], markup := true, atStart := s'.atStatementStart } :=
    { hs with
      sink := level_afresh.mpr rfl, markup := rfl, atStart := hs.atStatementStart
      ends := fun hne => ⟨rfl, (hs.ends hne).2⟩ }
  rw [children_eq, children_eq]
  rcases content_found hr ht name hinner with ⟨u, hu⟩ | hfound
  · refine .inl ⟨u.sink.reverse, { u with sink := s.sink, markup := s.markup, atStart := s.atStart }, ?_⟩
    have hcontent : Returns (r.content t name) _ none u := hu
    rw [get_bind]
    show ((r.content t name >>= _) { s with sink := [], markup := true, atStart := s.atStatementStart }) = _
    rw [hcontent.bind_eq]
    rfl
  · refine .inr (.get (.set (hfound.bind fun closing closing' inner inner' _ _ hclosing hi => .get (.set ?_))))
    have houter : P.Alike { inner with sink := s.sink, markup := s.markup, atStart := s.atStart }
        { inner' with sink := s'.sink, markup := s'.markup, atStart := s'.atStart } :=
      { hi with
        sink := hs.sink, markup := hs.markup, atStart := hs.atStart
        ends := fun hne => ⟨(hs.ends hne).1, (hi.ends hne).2⟩ }
    refine .ok ⟨?_, hclosing⟩ houter
    rw [SameNodes, placelessAll_reverse, placelessAll_reverse, level_afresh.mp hi.sink]

include hr ht in
/-- An element is read from its name on, so the white space before it does not matter. -/
theorem element_outcome {lt : Punct} {pos : Option Position} (space : Text) {s s' : State}
    (hs : P.Alike { s with stream := s.stream.skip 1 } { s' with stream := s'.stream.skip 1 })
    (hrest : s.stream.rest.drop 1 = ts) (hrest' : s'.stream.rest.drop 1 = us)
    (hname : ts.head?.any Token.startsTagName = true) :
    P.Outcome (fun _ _ => True) (r.element t lt s) (r.element t' { lt with pos, space } s') := by
  have h := hs.stream
  simp only [Stream.rest_skip, hrest, hrest'] at h
  cases ts with
  | nil => cases hname
  | cons tok ts =>
  have hlength := (tagNameTokens_isPrefix (tok :: ts)).length_le
  have htokens := h.tagNameTokens P.parted
  have htagName := Token.tagName_congr htokens
  unfold element
  refine At.skipped ?_ hs
  rw [hrest, hrest']
  refine .rest ?_
  dsimp only
  rw [Token.length_congr htokens, htagName]
  refine .skip hlength (Follows.start ?_)
  refine (attributes_follows ht lt.pos pos _).bind ?_
  rintro ⟨reading, stop⟩ ⟨reading', stop'⟩ ⟨hreading, hslash, hspace⟩
  have hnodes : placelessAll reading'.nodes = placelessAll reading.nodes := congrArg TagReading.nodes hreading
  have hattributes : reading'.attributes.reverse.map Attribute.placeless =
      reading.attributes.reverse.map Attribute.placeless := by
    rw [List.map_reverse, List.map_reverse]
    exact congrArg (fun r => r.attributes.reverse) hreading
  have hselfClosed : stop'.slash.isSome = stop.slash.isSome := by
    simpa using congrArg Option.isSome hslash
  dsimp only at hspace ⊢
  rw [hselfClosed, hspace]
  refine (hr.tagNodes P _ _ ?_).bind fun opening opening' hopening => ?_
  · refine ⟨rfl, ⟨rfl, rfl, rfl⟩, hattributes, ?_, ?_⟩
    · simp only [SameNodes, placelessAll, placelessAll_reverse, hnodes]
      split <;> simp only [placeless, htokens]
    · simp only [Option.map_some]
      repeat' split
      all_goals simp only [placeless, hslash]
  split
  · exact emit_follows hopening
  intro s s' hs
  rcases children_found hr ht (tagName (tagNameTokens (tok :: ts))) hs with ⟨ns, u, hu⟩ | hchildren
  · -- The first run finds no closing tag.
    simp only [Bind.bind, EStateM.bind, hu]
    exact .error
  · refine hchildren.bind fun a b u u' _ _ hab hu => ?_
    obtain ⟨children, closing⟩ := a
    obtain ⟨children', closing'⟩ := b
    obtain ⟨hchildren, hclosing⟩ := hab
    cases closing with
    | none => exact .error
    | some c =>
      cases closing' with
      | none => exact hclosing.elim
      | some c' =>
        obtain ⟨hcname, hctokens⟩ := hclosing
        dsimp only
        rw [hcname]
        refine Follows.guard id (fun _ => ?_) u u' hu
        refine (hr.tagNodes P _ _ ?_).bind fun stop stop' hstop => ?_
        · exact ⟨rfl, ⟨rfl, rfl, rfl⟩, rfl, by simp only [SameNodes, placelessAll, placeless, hctokens], rfl⟩
        · refine (hr.elementNodes P _ _ ?_).bind fun ns ns' hns => emit_follows hns
          exact ⟨rfl, hattributes, hopening, hchildren, hstop, by rw [ht.settings]⟩

theorem comment_eq {lt : Punct} {s : State} : comment lt s =
    (commentFrom lt.pos (s.stream.skip 4).rest >>= fun body =>
      emitText (spaceBefore s (.punct lt) ++ utf8 "<!--" ++ body) lt.pos) { s with stream := s.stream.skip 4 } := rfl

/-- The text of a comment is found before anything is written. -/
theorem comment_outcome {lt : Punct} {pos : Option Position} {space : Text} {s s' : State}
    (h : P.Ahead (.punct lt) (.punct { lt with pos, space }) ts us s s') (hlength : 3 ≤ ts.length) :
    P.Outcome (fun _ _ => True) (comment lt s) (comment { lt with pos, space } s') := by
  have hbehind := h.behind.skip (n := 3) (by simp [h.rest.1, hlength])
  have hread (pos : Option Position) (s : State) := commentFrom_eq pos (s.stream.skip 4).rest
    (s := { s with stream := s.stream.skip 4 })
  rw [comment_eq, comment_eq]
  simp only [Bind.bind, EStateM.bind]
  rcases hread lt.pos s hbehind.budget.1 with ⟨-, e, u, hs⟩ | ⟨body, n, hbody, hs⟩
  · rw [hs]
    exact .error
  · rw [Stream.skip_succ _ 3] at hbody
    obtain ⟨hbody', hn⟩ := commentText_along hbehind.stream hbody
    rcases hread pos s' hbehind.budget.2 with ⟨hnone, -⟩ | ⟨body', n', hsome, hs'⟩
    · rw [Stream.skip_succ _ 3, hbody'] at hnone
      cases hnone
    · rw [Stream.skip_succ _ 3, hbody'] at hsome
      cases hsome
      have hmore : P.afresh.Alike { s with stream := (s.stream.skip 4).skip n, sink := [], trimLine := false }
          { s' with stream := (s'.stream.skip 4).skip n, sink := [], trimLine := false } := by
        rw [Stream.skip_succ _ 3, Stream.skip_succ s'.stream 3]
        exact hbehind.skip hn
      have hwritten := h.push { s with stream := (s.stream.skip 4).skip n }
        { s' with stream := (s'.stream.skip 4).skip n } hmore ⟨rfl, rfl⟩ ⟨rfl, rfl⟩ (utf8 "<!--" ++ body) lt.pos pos
      rw [← List.append_assoc, ← List.append_assoc] at hwritten
      rw [hs, hs']
      exact .ok trivial hwritten

/-- What follows `<` in both runs. -/
theorem tagEntry_tests (lt : Punct) (pos : Option Position) (space : Text) (h : Token.Alongside P.after ts us) :
    (((us.head?.filter Token.glued).any (·.isPunct '/') && us.tail.head?.any fun n => n.glued && n.startsTagName) =
      ((ts.head?.filter Token.glued).any (·.isPunct '/') && ts.tail.head?.any fun n => n.glued && n.startsTagName)) ∧
    startsWithMarks ['<', '!', '-', '-'] (.punct { lt with pos, space } :: us) =
      startsWithMarks ['<', '!', '-', '-'] (.punct lt :: ts) ∧
    (us.head?.filter Token.glued).any Token.startsTagName = (ts.head?.filter Token.glued).any Token.startsTagName := by
  have hfilter (p : Token → Bool) (ts : List Token) :
      (ts.head?.filter Token.glued).any p = ts.head?.any fun t => t.glued && p t := by
    cases ts.head? with
    | none => rfl
    | some t => cases hg : t.glued <;> simp [Option.filter, hg]
  have hnext (p : Token → Bool) (hp : ∀ t u, Token.Same t u → p u = p t) {ts us : List Token}
      (h : Token.Alongside P.after ts us) :
      us.head?.any (fun t => t.glued && p t) = ts.head?.any fun t => t.glued && p t :=
    h.any_head P.parted (fun t u hs => by rw [hs.glued, hp t u hs]) fun t ht => (Bool.and_eq_true_iff.mp ht).1
  refine ⟨?_, ?_, ?_⟩
  · have hslash := hnext (·.isPunct '/') (fun _ _ hs => hs.isPunct _) h
    rw [hfilter, hfilter, hslash]
    cases ts with
    | nil => rfl
    | cons t ts =>
      obtain ⟨u, us, rfl, -, hrest⟩ := h.cons
      rw [List.tail_cons, List.tail_cons, hnext Token.startsTagName (fun _ _ hs => hs.startsTagName) hrest]
  · rw [startsWithMarks, startsWithMarks, h.gluedMarks P.parted]
    rfl
  · rw [hfilter, hfilter, hnext Token.startsTagName (fun _ _ hs => hs.startsTagName) h]

include hr ht in
/-- An element is read behind the white space before it. -/
theorem element_entry {lt : Punct} {pos : Option Position} {space : Text} {s s' : State}
    (h : P.Near (.punct lt) (.punct { lt with pos, space }) ts us s s')
    (hopens : (ts.head?.filter Token.glued).any Token.startsTagName = true) :
    P.Outcome SameEnd
      ((if s.markup then emitText lt.space lt.pos >>= fun _ => do
          r.element t lt
          return (none : Option ClosingTag)
        else do
          r.element t lt
          return none) s)
      ((if s'.markup then emitText space pos >>= fun _ => do
          r.element t' { lt with pos, space }
          return (none : Option ClosingTag)
        else do
          r.element t' { lt with pos, space }
          return none) s') := by
  have hs := emitSpace_eq (s := s) (.punct lt) (m := do r.element t lt; return (none : Option ClosingTag))
  have hs' := emitSpace_eq (s := s') (.punct { lt with pos, space }) (m := do
    r.element t' { lt with pos, space }
    return (none : Option ClosingTag))
  refine Eq.mpr (congr (congrArg (P.Outcome SameEnd) hs) hs') ?_
  have hrest : (s.pushText lt.pos (spaceBefore s (.punct lt))).stream.rest.drop 1 = ts := by
    rw [State.stream_pushText, h.rest.1]
    rfl
  have hname : ts.head?.any Token.startsTagName = true := by
    cases hhead : ts.head? with
    | none => simp [hhead] at hopens
    | some t => cases hg : t.glued <;> simp_all [Option.filter]
  exact (element_outcome hr ht space (h.pass _ _ (Nat.zero_le _)) hrest rfl hname).bind fun _ _ _ _ _ _ _ hs =>
    .ok trivial hs

include hr ht in
theorem tagEntry_outcome {lt : Punct} {pos : Option Position} {space : Text} {s s' : State}
    (h : P.Ahead (.punct lt) (.punct { lt with pos, space }) ts us s s') :
    P.Outcome SameEnd (r.tagEntry t lt ts s) (r.tagEntry t' { lt with pos, space } us s') := by
  have halong : Token.Alongside P.after ts us := by
    simpa [afresh, h.rest.1, h.rest.2] using h.behind.stream
  obtain ⟨hcloses, hcomments, hopens⟩ := tagEntry_tests (P := P) lt pos space halong
  refine Outcome.get ?_
  dsimp only
  rw [hcloses, hcomments, hopens]
  by_cases hc : ((ts.head?.filter Token.glued).any (·.isPunct '/') &&
      ts.tail.head?.any fun n => n.glued && n.startsTagName) = true
  · rw [if_pos hc, if_pos hc]
    have hs := emitSpace_eq (s := s) (.punct lt) (m := do return some (← closingTag))
    have hs' := emitSpace_eq (s := s') (.punct { lt with pos, space }) (m := do return some (← closingTag))
    refine Eq.mpr (congr (congrArg (P.Outcome SameEnd) hs) hs') ?_
    have hlength : 1 ≤ ts.length := by
      cases ts with
      | nil => cases hc
      | cons => simp
    exact (closingTag_outcome (h.pass _ _ hlength)).bind fun _ _ _ _ _ _ hc hs => .ok hc hs
  rw [if_neg hc, if_neg hc]
  by_cases hm : startsWithMarks ['<', '!', '-', '-'] (.punct lt :: ts) = true
  · rw [if_pos hm, if_pos hm]
    refine (comment_outcome h ?_).bind fun _ _ _ _ _ _ _ hs => .ok trivial hs
    exact Nat.le_of_succ_le_succ (Token.length_of_startsWithMarks hm)
  rw [if_neg hm, if_neg hm]
  by_cases ho : (ts.head?.filter Token.glued).any Token.startsTagName = true
  · rw [if_pos ho, if_pos ho]
    exact element_entry hr ht h.toNear ho
  · rw [if_neg ho, if_neg ho, h.markup]
    cases hmarkup : s.markup with
    | true =>
      have hwritten := h.pushText (utf8 "<") lt.pos pos
      rw [spaceBefore, spaceBefore, if_pos hmarkup, if_pos (h.markup.trans hmarkup)] at hwritten
      exact .ok trivial hwritten
    | false =>
      have hnone {s : State} (tok : Token) (hs : s.markup = false) : spaceBefore s tok ++ [] = [] := by
        simp [spaceBefore, hs]
      have hspace := h.pushText [] lt.pos pos
      rw [hnone _ hmarkup, hnone _ (h.markup.trans hmarkup), State.pushText_nil, State.pushText_nil] at hspace
      obtain rfl : space = lt.space := h.code hmarkup
      have hsame : placelessAll [.punct { lt with pos }] = placelessAll [.punct lt] := rfl
      exact .ok trivial (hspace.foldl_push hsame)

/-! ## The loop -/

include ht in
theorem goOn_goes {s s' : State} (hs : P.Alike s s') : P.Goes loop (goOn t s) (goOn t' s') := by
  rw [goOn_unbroken hs.unbroken.1, goOn_unbroken hs.unbroken.2]
  exact ht.resume P s s' hs

include ht in
/-- In markup the white space before a group comes with its opening delimiter. -/
theorem group_outcome {f : Frame} {cs ds : List Token} {pos : Option Position} {space : Text} {s s' : State}
    (h : P.Ahead (.group f cs) (.group { f with pos, space } ds) ts us s s') (hmarkup : s.markup = true)
    (hds : Token.unplacedAll ds = Token.unplacedAll cs) :
    P.Outcome (fun _ _ => True) (t.group f cs { s with stream := s.stream.skip 1 })
      (t'.group { f with pos, space } ds { s' with stream := s'.stream.skip 1 }) := by
  have hgroups : Groups f cs { f with pos } ds :=
    ⟨⟨pos, rfl⟩, hds, h.placed.1.group (.head _), h.placed.2.group (.head _)⟩
  have hopening := h.pushText f.delim.opening f.pos pos
  rw [spaceBefore, spaceBefore, if_pos hmarkup, if_pos (h.markup.trans hmarkup)] at hopening
  have hmarkup' : s'.markup = true := h.markup.trans hmarkup
  refine Outcome.get ?_
  dsimp only
  rw [if_pos hmarkup, if_pos hmarkup']
  exact groupRest_follows ht hgroups _ _ hopening

include hr ht in
theorem markerAct_goes {tok tok' : Token} {s s' : State} (h : P.Ahead tok tok' ts us s s') :
    P.Goes loop (r.act t tok ts .marker s) (r.act t' tok' us .marker s') :=
  (marker_outcome hr ht h).andThen Goes.lax fun _ _ _ _ _ _ _ hs => goOn_goes ht hs

include ht in
theorem tagAct_goes {lt lt' : Punct} {s s' : State}
    (h : P.Outcome SameEnd (r.tagEntry t lt ts s) (r.tagEntry t' lt' us s')) :
    P.Goes loop (r.act t (.punct lt) ts (.tag lt) s) (r.act t' (.punct lt') us (.tag lt') s') := by
  refine Outcome.andThen Goes.lax h fun closing closing' _ _ _ _ hc hs => ?_
  cases closing with
  | none =>
    cases closing' with
    | none => exact goOn_goes ht hs
    | some => exact hc.elim
  | some =>
    cases closing' with
    | none => exact hc.elim
    | some => exact .closing hc hs

include hr ht in
/-- In markup the next token does the same after other white space. -/
theorem act_goes {tok tok' : Token} {s s' : State} (h : P.Ahead tok tok' ts us s s') (hmarkup : s.markup = true)
    (statement statement' : Bool) :
    P.Goes loop (r.act t tok ts (tok.action true statement) s)
      (r.act t' tok' us (tok'.action true statement') s') := by
  have hword (pos pos' : Option Position) (x : Text) : P.Goes loop
      ((do
        skip 1
        emitText (tok.space ++ x) pos
        goOn t) s)
      ((do
        skip 1
        emitText (tok'.space ++ x) pos'
        goOn t') s') := by
    have hwritten := h.pushText x pos pos'
    rw [spaceBefore, spaceBefore, if_pos hmarkup, if_pos (h.markup.trans hmarkup)] at hwritten
    exact goOn_goes ht hwritten
  have hsame := h.same
  cases hsame with
  | ident id pos => exact hword id.pos pos id.name
  | literal l pos => exact hword l.pos pos _
  | group f pos space hds =>
    have hgroup : P.Goes loop ((t.group f _ >>= fun _ => goOn t) { s with stream := s.stream.skip 1 })
        ((t'.group { f with pos, space } _ >>= fun _ => goOn t') { s' with stream := s'.stream.skip 1 }) :=
      (group_outcome ht h hmarkup hds).andThen Goes.lax fun _ _ _ _ _ _ _ hs => goOn_goes ht hs
    exact hgroup
  | punct p pos =>
    simp only [Token.action, Bool.not_true, Bool.and_false, Bool.false_eq_true, if_false, if_true, Bool.true_or]
    split
    · exact markerAct_goes hr ht h
    split
    · exact tagAct_goes ht (tagEntry_outcome hr ht h)
    · exact hword p.pos pos _

include hr ht in
/-- Code is only read where the tokens end in both runs. -/
theorem codeAct_goes {tok tok' : Token} {s s' : State} (h : P.Ahead tok tok' ts us s s') (hs : P.Alike s s')
    (hsame : Token.Same tok tok') (hP : P.after = []) (statement : Bool) :
    P.Goes loop (r.act t tok ts (tok.action false statement) s)
      (r.act t' tok' us (tok'.action false statement) s') := by
  have hskip : P.Alike { s with stream := s.stream.skip 1 } { s' with stream := s'.stream.skip 1 } :=
    hs.skip (by simp [h.rest.1])
  cases hsame.moved with
  | ident id pos =>
    refine Outcome.andThen Goes.lax (expression_follows ht s s' hs) fun ns ns' _ _ _ _ hns hs => ?_
    exact (emit_follows hns _ _ hs).andThen Goes.lax fun _ _ _ _ _ _ _ hs => goOn_goes ht hs
  | literal l pos =>
    have hpush := hskip.foldl_push (show placelessAll [.literal { l with pos }] = placelessAll [.literal l] from rfl)
    exact goOn_goes ht hpush
  | group f pos hds =>
    have hgroups : Groups f _ { f with pos } _ :=
      ⟨⟨pos, rfl⟩, hds, h.placed.1.group (.head _), h.placed.2.group (.head _)⟩
    have hgroup : P.Goes loop ((t.group f _ >>= fun _ => goOn t) { s with stream := s.stream.skip 1 })
        ((t'.group { f with pos } _ >>= fun _ => goOn t') { s' with stream := s'.stream.skip 1 }) :=
      (group_follows ht hgroups _ _ hskip).andThen Goes.lax fun _ _ _ _ _ _ _ hs => goOn_goes ht hs
    exact hgroup
  | punct p pos =>
    have hcode : P.Goes loop (r.act t (.punct p) ts (.code p) s)
        (r.act t' (.punct { p with pos }) us (.code { p with pos }) s') := by
      have halong : Token.Alongside P.after ts us := by simpa [h.rest.1, h.rest.2] using hskip.stream
      have hread : P.From (.punct p :: ts) (.punct { p with pos } :: us) (t.code p)
          (t'.code { p with pos }) fun _ _ => True :=
        code_from ht hP halong (h.placed.1.drop 1) (h.placed.2.drop 1)
      exact (hread s s' hs h.rest.1 h.rest.2).andThen Goes.lax fun _ _ _ _ _ _ _ hs => goOn_goes ht hs
    simp only [Token.action, Bool.not_false, Bool.and_true, Bool.false_eq_true, if_false, Bool.false_or]
    split
    · exact markerAct_goes hr ht h
    split
    · split
      · exact tagAct_goes ht (tagEntry_outcome hr ht h)
      · exact hcode
    split
    · exact .done hP hs
    · exact hcode

include hr ht in
/-- A turn of two runs that are alike. -/
theorem turn_goes {tok : Token} {s s' : State} (hs : P.Alike s s') (hrest : s.stream.rest = tok :: ts) :
    P.Goes loop (r.turn t s) (r.turn t' s') := by
  obtain ⟨tok', us, hrest', hsame, -⟩ := (hrest ▸ hs.stream).cons
  have haction : tok'.action s'.markup s'.atStatementStart = tok'.action s.markup s.atStatementStart := by
    rw [hs.markup, hs.atStatementStart]
  rw [turn_cons r t hs.budget.1 hrest, turn_cons r t' hs.budget.2 hrest', haction]
  have hlast : P.Alike { s with last := tok.pos } { s' with last := tok'.pos } := { hs with }
  obtain ⟨_, _, hahead, -⟩ := hlast.ahead hrest
  obtain ⟨rfl, rfl⟩ := List.cons.inj (hrest'.symm.trans hahead.rest.2)
  have hmode {b : Bool} (hb : s.markup = b) (tok : Token) :
      tok.action s.markup s.atStatementStart = tok.action b s.atStatementStart := by rw [hb]
  by_cases hmarkup : s.markup = true
  · rw [hmode hmarkup, hmode hmarkup]
    exact act_goes hr ht hahead hmarkup _ _
  · rw [hmode (Bool.not_eq_true _ ▸ hmarkup), hmode (Bool.not_eq_true _ ▸ hmarkup)]
    refine codeAct_goes hr ht hahead hlast hsame ?_ _
    cases hafter : P.after with
    | nil => rfl
    | cons => exact (hmarkup (hs.ends (by simp [hafter])).1).elim

include hr in
/-- The loops of two runs that are alike. Where the first run has ended the second one may go on with more turns. -/
theorem loop_goes {settings : Settings} {embed embed' : Text → Text → ParseM Fragment}
    (hembed : ∀ (P : Seam) (file src : Text), P.Follows (embed file src) (embed' file src) SameFragment) (n n' : Nat)
    (P : Seam) (s s' : State) (hs : P.Alike s s') :
    P.Goes (r.loop settings embed') (r.loop settings embed n s) (r.loop settings embed' n' s') := by
  induction n generalizing n' P s s' with
  | zero => exact .error
  | succ n ih =>
    cases n' with
    | zero => exact .short
    | succ n' =>
      cases hrest : s.stream.rest with
      | nil =>
        have hnone : r.loop settings embed (n + 1) s = .ok none s := turn_nil r _ hs.budget.1 hrest
        rw [hnone]
        by_cases hP : P.after = []
        · have hrest' : s'.stream.rest = [] := by
            have hstream := hs.stream
            rw [hP, hrest] at hstream
            exact hstream.nil
          have hnone' : r.loop settings embed' (n' + 1) s' = .ok none s' := turn_nil r _ hs.budget.2 hrest'
          rw [hnone']
          exact .done hP hs
        · exact .more hP hrest hs
      | cons tok ts =>
        have huses : Uses (r.loop settings embed')
            { settings, embed, knows := fun name => (r.directive? name).isSome,
              resume := r.loop settings embed n, turns := n }
            { settings, embed := embed', knows := fun name => (r.directive? name).isSome,
              resume := r.loop settings embed' n', turns := n' } :=
          ⟨rfl, fun P s s' hs => ih n' P s s' hs, hembed⟩
        exact turn_goes hr huses hs hrest

/-! ## Included templates -/

/-- Both worlds have the same in their caches but for positions, and no bound on their steps. -/
structure SameWorld (w w' : World) : Prop where
  budget : w.budget = none ∧ w'.budget = none
  cache : w'.cache.map Cache.shown = w.cache.map Cache.shown

/-- The second run follows the first one over a whole file. -/
inductive Reparsed : EStateM.Result Error World (List Node × Declarations) →
    EStateM.Result Error World (List Node × Declarations) → Prop
  | ok {ns ns' : List Node} {d d' : Declarations} {v v' : World} :
      SameNodes ns ns' → SameWorld v v' → Reparsed (.ok (ns, d) v) (.ok (ns', d') v')
  | error {e : Error} {v : World} {r : EStateM.Result Error World (List Node × Declarations)} : Reparsed (.error e v) r
  | short {r : EStateM.Result Error World (List Node × Declarations)} {v' : World} :
      Reparsed r (.error .exhausted v')

/-- The beginning of a file, where nothing else follows. -/
theorem start_alike {w w' : World} (hw : SameWorld w w') (path : Text) (includers : List Text) {stream stream' : Stream}
    (last last' : Option Position) (hsame : Token.unplacedAll stream'.rest = Token.unplacedAll stream.rest)
    (hplaced : Token.AllPlaced stream.rest ∧ Token.AllPlaced stream'.rest) :
    whole.Alike { world := w, path, includers, stream, last }
      { world := w', path, includers, stream := stream', last := last' } where
  stream := .of_eq hsame
  sink := level_afresh (P := whole).mpr rfl
  atStart := rfl
  markup := rfl
  unbroken := ⟨rfl, rfl⟩
  trimLine := rfl
  path := rfl
  includers := rfl
  budget := hw.budget
  cache := hw.cache
  declared := by simp [whole]
  placed := hplaced
  ends := fun hne => (hne rfl).elim

omit hr in
/-- A file ends as the loop over its tokens does. -/
theorem readTokens_of_loop (settings : Settings) {embed : Text → Text → ParseM Fragment} {n n' : Nat}
    (tokens tokens' : List Token) (trailing : Text) {s s' : State} (hb : s.world.budget = none ∧ s'.world.budget = none)
    (hloop : P.Outcome SameEnd (r.loop settings embed n s) (r.loop settings embed n' s')) :
    P.Outcome (fun _ _ => True) (r.readTokens settings embed n tokens trailing s)
      (r.readTokens settings embed n' tokens' trailing s') := by
  unfold readTokens
  rw [(checkStop_unlimited hb.1).bind_eq, (checkStop_unlimited hb.2).bind_eq]
  refine hloop.bind fun closing closing' _ _ _ _ hc hs => ?_
  cases closing with
  | some c => exact .error
  | none =>
    cases closing' with
    | some => exact hc.elim
    | none => exact emitText_follows _ _ _ _ _ hs

/-- What is true of a file is true of a file that is included. -/
theorem embedIn_follows {settings : Settings} {n : Nat}
    (hparse : ∀ includers path src w w', SameWorld w w' →
      Reparsed (r.parseSource settings n includers path src w) (r.parseSource settings n includers path src w'))
    (includers : List Text) (path : Text) (P : Seam) (file src : Text) :
    P.Follows (r.embedIn settings n includers path file src) (r.embedIn settings n includers path file src)
      SameFragment := by
  intro s s' hs
  have hfile := hparse (includers ++ [path]) file src s.world s'.world ⟨hs.budget, hs.cache⟩
  simp only [embedIn, Bind.bind, EStateM.bind, ParseM.ofWorld]
  generalize r.parseSource settings n (includers ++ [path]) file src s.world = x at hfile
  generalize r.parseSource settings n (includers ++ [path]) file src s'.world = x' at hfile
  cases hfile with
  | ok hns hv => exact .ok hns { hs with budget := hv.budget, cache := hv.cache }
  | error => exact .error
  | short => exact .short

include hr in
/-- Files are parsed alike. -/
theorem parseSource_reparsed (settings : Settings) (n : Nat) (includers : List Text) (path src : Text) (w w' : World)
    (hw : SameWorld w w') :
    Reparsed (r.parseSource settings n includers path src w) (r.parseSource settings n includers path src w') := by
  induction n generalizing includers path src w w' with
  | zero => exact .error
  | succ n ih =>
    cases hlex : Token.lex src with
    | error e =>
      have herror : r.parseSource settings (n + 1) includers path src w = .error (e.withPath path) w := by
        unfold parseSource
        rw [hlex]
      rw [herror]
      exact .error
    | ok found =>
      obtain ⟨tokens, trailing⟩ := found
      have hturns : r.turns w' tokens = r.turns w tokens := by
        unfold Registry.turns
        rw [hw.budget.1, hw.budget.2]
      have hplaced := Token.allPlaced_of_lex hlex
      have hstart : whole.Alike { world := w, path, includers, stream := .ofTokens tokens }
          { world := w', path, includers, stream := .ofTokens tokens } :=
        start_alike hw path includers _ _ rfl ⟨hplaced, hplaced⟩
      have hread := readTokens_of_loop settings tokens tokens trailing hstart.budget
        ((loop_goes hr (embedIn_follows ih includers path) (r.turns w tokens) (r.turns w tokens) _ _ _ hstart).ends rfl)
      rw [parseSource_lexed r settings n includers path src w hlex,
        parseSource_lexed r settings n includers path src w' hlex, hturns]
      simp only [WorldM.ofParse]
      generalize r.readTokens settings (r.embedIn settings n includers path) (r.turns w tokens) tokens trailing
        { world := w, path, includers, stream := .ofTokens tokens } = x at hread
      generalize r.readTokens settings (r.embedIn settings n includers path) (r.turns w tokens) tokens trailing
        { world := w', path, includers, stream := .ofTokens tokens } = x' at hread
      cases hread with
      | ok _ hs =>
        refine .ok ?_ ⟨hs.budget, hs.cache⟩
        rw [SameNodes, placelessAll_reverse, placelessAll_reverse, level_afresh (P := whole).mp hs.sink]
      | error => exact .error
      | short => exact .short

include hr in
/-- Included templates are parsed alike. -/
theorem embed_follows (settings : Settings) (n : Nat) (includers : List Text) (path : Text) (P : Seam)
    (file src : Text) : P.Follows (r.embedIn settings n includers path file src)
      (r.embedIn settings n includers path file src) SameFragment :=
  embedIn_follows (fun includers path src w w' => parseSource_reparsed hr settings n includers path src w w')
    includers path P file src

end Seam
end Atmark
