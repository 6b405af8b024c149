import Atmark.Proofs.Code.Unplaced
import Atmark.Proofs.Directive.Moves
import Atmark.Proofs.Parse.Cycle
import Atmark.Proofs.Parse.RawContent
import Atmark.Proofs.Token.Apostrophe

/-! Attributes between other quotes. The lexer cuts a value between apostrophes into tokens before anything knows of the
tag, so the attribute is put together from the tokens up to the second one (`Tools.untilApostrophe_value`). With either
quotes the opening tag is read in one turn, to the same nodes but for the quotes (`Registry.turn_opens`), and behind it
the two runs are at the same place and read the same children (`Seam.body_outcome`, `Seam.loop_opens`). Where the second
apostrophe has gone into a character literal the tag cannot be read (`Tools.openingTag_unclosed`). -/
namespace Atmark
open Node ParseM

/-! ## The opening tag -/

namespace Tools
variable {s : State} {v : Text} {q : UInt8} {vs after : List Token}

/-- A value between apostrophes goes up to the second one. -/
theorem untilApostrophe_value {ts : List Token} (hts : ∀ t ∈ ts, t.isPunct '\'' = false) (pos : Option Position)
    (space : Text) (after : List Token) :
    untilApostrophe (ts ++ .punct ⟨pos, space, '\''⟩ :: after) = some (ts, space) := by
  induction ts with
  | nil => rfl
  | cons t ts ih =>
    have ht : t.isPunct '\'' = false := hts t (.head _)
    rw [List.cons_append, untilApostrophe, ht, ih fun t ht => hts t (.tail _ ht)]
    rfl

theorem untilApostrophe_none (hvs : ∀ t ∈ vs, t.isPunct '\'' = false) : untilApostrophe vs = none := by
  induction vs with
  | nil => rfl
  | cons t ts ih =>
    have ht : t.isPunct '\'' = false := hvs t (.head _)
    rw [untilApostrophe, ht, ih fun t ht => hvs t (.tail _ ht)]
    rfl

/-- A value is read between either quotes. -/
theorem attrValue_takes (t : Tools) (tag attr : Text) (h : Token.Value v q vs) (after : List Token) :
    ∃ tok us pos, vs = tok :: us ∧ ∀ s : State, s.stream.rest = vs ++ after →
      (t.attrValue tag attr tok (us ++ after)).Takes s ⟨pos, { text := some v, quote := some q }, []⟩ vs := by
  cases h with
  | string pos =>
    refine ⟨_, [], pos, rfl, fun s hrest => ?_⟩
    have hcontent : Literal.content ⟨pos, [], .string, 0x22 :: (v ++ [0x22])⟩ = v := by simp [Literal.content]
    have hvalue : (t.attrValue tag attr (.literal ⟨pos, [], .string, 0x22 :: (v ++ [0x22])⟩) ([] ++ after)).Takes s
        ⟨pos, { text := some (Literal.content ⟨pos, [], .string, 0x22 :: (v ++ [0x22])⟩), quote := some 0x22 }, []⟩ _ :=
      .map _ (.skip _ hrest rfl)
    rwa [hcontent] at hvalue
  | rune pos =>
    refine ⟨_, [], pos, rfl, fun s hrest => ?_⟩
    have hcontent : Literal.content ⟨pos, [], .rune, 0x27 :: (v ++ [0x27])⟩ = v := by simp [Literal.content]
    have hvalue : (t.attrValue tag attr (.literal ⟨pos, [], .rune, 0x27 :: (v ++ [0x27])⟩) ([] ++ after)).Takes s
        ⟨pos, { text := some (Literal.content ⟨pos, [], .rune, 0x27 :: (v ++ [0x27])⟩), quote := some 0x27 }, []⟩ _ :=
      .map _ (.skip _ hrest rfl)
    rwa [hcontent] at hvalue
  | @marks pos pos' space ts hmark hsource =>
    refine ⟨_, _, pos, rfl, fun s hrest => ?_⟩
    have huntil := untilApostrophe_value hmark pos' space after
    have hvalue : t.attrValue tag attr (.mark pos '\'') (ts ++ [.punct ⟨pos', space, '\''⟩] ++ after) = (do
        skip (ts.length + 2)
        return ⟨pos, { text := some v, quote := some 0x27 }, []⟩) := by
      rw [List.append_assoc, List.singleton_append]
      unfold attrValue Token.mark
      dsimp only
      rw [if_pos rfl, huntil]
      dsimp only
      rw [hsource]
      rfl
    rw [hvalue]
    exact .map _ (.skip _ hrest (by simp))

/-- A step of the reading of a tag, where a token follows. -/
theorem attributesWithin_reaches (t : Tools) (lt : Option Position) (tag : Text) (n : Nat) (reading : TagReading)
    (focus : TagFocus) {tok : Token} {ts : List Token} (hb : s.world.budget = none) (hrest : s.stream.rest = tok :: ts) :
    ∃ u : State, s.Passes [] u ∧ t.attributesWithin lt tag (n + 1) reading focus s =
      t.attributeStep tag (t.attributesWithin lt tag n) reading focus tok ts u := by
  obtain ⟨u₁, hcheck, h₁⟩ := checkStop_passes hb
  obtain ⟨u₂, hlast, h₂⟩ := setLast_passes u₁ tok.pos
  have hlook : Returns rest u₁ u₁.stream.rest u₁ := rfl
  refine ⟨u₂, h₁.trans h₂, ?_⟩
  rw [attributesWithin_succ, hcheck.bind_eq, hlook.bind_eq, h₁.rest_eq hrest]
  exact hlast.bind_eq _

/-- A name and an equals sign are read up to the value of the attribute. -/
theorem attributes_value (t : Tools) (lt : Option Position) (tag attr : Text) (pos equals : Option Position) {tok : Token}
    (hb : s.world.budget = none)
    (hrest : s.stream.rest = .ident ⟨pos, utf8 " ", attr⟩ :: .mark equals '=' :: tok :: after) :
    ∃ u : State, s.Passes [.ident ⟨pos, utf8 " ", attr⟩, .mark equals '='] u ∧ t.attributes lt tag s = (do
      let value ← t.attrValue tag attr tok after
      t.attributesWithin lt tag (after.length + 1)
        (({} : TagReading).withValue ⟨attr, none, utf8 " ", pos⟩ equals value) .name) u := by
  obtain ⟨u₁, h₁, hname⟩ := attributesWithin_reaches t lt tag (after.length + 3) {} .name hb hrest
  obtain ⟨u₂, hskip, h₂⟩ := skip_passes [_] (h₁.rest_eq hrest)
  have hrest₂ := h₂.rest_eq (h₁.rest_eq hrest)
  have hb₂ := h₂.unlimited (h₁.unlimited hb)
  obtain ⟨u₃, h₃, hequals⟩ := attributesWithin_reaches t lt tag (after.length + 2)
    (({} : TagReading).addKey (.ident ⟨pos, utf8 " ", attr⟩)) .name hb₂ hrest₂
  obtain ⟨u₄, hskip', h₄⟩ := skip_passes [_] (h₃.rest_eq hrest₂)
  have hrest₄ := h₄.rest_eq (h₃.rest_eq hrest₂)
  have hb₄ := h₄.unlimited (h₃.unlimited hb₂)
  obtain ⟨u₅, h₅, hvalue⟩ := attributesWithin_reaches t lt tag (after.length + 1)
    (({} : TagReading).addKey (.ident ⟨pos, utf8 " ", attr⟩)) (.value ⟨attr, none, utf8 " ", pos⟩ equals) hb₄ hrest₄
  refine ⟨u₅, (h₁.trans h₂).trans ((h₃.trans h₄).trans h₅), ?_⟩
  calc t.attributes lt tag s
    _ = t.attributesWithin lt tag (s.stream.rest.length + 1) {} .name s := rfl
    _ = t.attributesWithin lt tag (after.length + 3 + 1) {} .name s := by rw [hrest]; rfl
    _ = t.attributesWithin lt tag (after.length + 2 + 1) (({} : TagReading).addKey (.ident ⟨pos, utf8 " ", attr⟩)) .name u₂ :=
      hname.trans (hskip.bind_eq _)
    _ = t.attributesWithin lt tag (after.length + 1 + 1) (({} : TagReading).addKey (.ident ⟨pos, utf8 " ", attr⟩))
          (.value ⟨attr, none, utf8 " ", pos⟩ equals) u₄ := hequals.trans (hskip'.bind_eq _)
    _ = _ := hvalue

/-- The attributes of a tag that has one. -/
theorem attributes_takes (t : Tools) (lt : Option Position) (tag attr : Text) (pos equals gt : Option Position)
    (hvs : Token.Value v q vs) (hb : s.world.budget = none) (hrest : s.stream.rest =
      .ident ⟨pos, utf8 " ", attr⟩ :: .mark equals '=' :: (vs ++ .mark gt '>' :: after)) :
    ∃ valuePos, (t.attributes lt tag).Takes s
      (⟨[.attrValue valuePos { text := some v, quote := some q } [], .attrEquals equals, .attrName pos (utf8 " ") attr none],
        [⟨attr, some ⟨valuePos, { text := some v, quote := some q }, []⟩⟩], none⟩, ⟨none, [], gt⟩)
      (.ident ⟨pos, utf8 " ", attr⟩ :: .mark equals '=' :: (vs ++ [.mark gt '>'])) := by
  obtain ⟨tok, us, valuePos, rfl, hvalue⟩ := attrValue_takes t tag attr hvs (.mark gt '>' :: after)
  obtain ⟨u, hu, hattributes⟩ := attributes_value t lt tag attr pos equals hb hrest
  obtain ⟨u', hvalue, hu'⟩ := hvalue u (hu.rest_eq hrest)
  have hrest' := hu'.rest_eq (hu.rest_eq hrest)
  obtain ⟨u'', hu'', hend⟩ := attributesWithin_reaches t lt tag (us ++ .mark gt '>' :: after).length
    (({} : TagReading).withValue ⟨attr, none, utf8 " ", pos⟩ equals ⟨valuePos, { text := some v, quote := some q }, []⟩)
    .name (hu'.unlimited (hu.unlimited hb)) hrest'
  obtain ⟨u₃, hskip, h₃⟩ := skip_passes [_] (hu''.rest_eq hrest')
  refine ⟨valuePos, u₃, ?_, hu.trans (hu'.trans (hu''.trans h₃))⟩
  exact hattributes.trans (hvalue.andThen (hend.trans (hskip.andThen rfl)))

/-- The name of a tag is read up to its attributes. -/
theorem openingTag_named (t : Tools) (lt pos : Option Position) (name : Text) {tok : Token} (htok : tok.glued = false)
    (hrest : s.stream.rest = .mark lt '<' :: .ident ⟨pos, [], name⟩ :: tok :: after) :
    ∃ u : State, s.Passes [.mark lt '<', .ident ⟨pos, [], name⟩] u ∧ t.openingTag ⟨lt, [], '<'⟩ s = (do
      let (reading, stop) ← t.attributes lt name
      return ([Token.ident ⟨pos, [], name⟩], reading, stop)) u := by
  obtain ⟨u, hskip, hu⟩ := skip_passes [_] hrest
  have hrest' := hu.rest_eq hrest
  obtain ⟨u', hskip', hu'⟩ := skip_passes [_] hrest'
  have htokens : tagNameTokens u.stream.rest = [.ident ⟨pos, [], name⟩] := by
    simp [hrest', tagNameTokens, gluedTagName, htok, Token.continuesTagName, Token.startsTagName]
  have hname : tagName [.ident ⟨pos, [], name⟩] = name := by simp [tagName, Token.brief]
  refine ⟨u', hu.trans hu', ?_⟩
  unfold openingTag
  apply (hskip.bind_eq _).trans
  rw [rest_bind, htokens]
  dsimp only
  rw [hname]
  exact hskip'.bind_eq _

/-- The opening tag of an element with one attribute. -/
theorem openingTag_takes (t : Tools) (lt pos pos' equals gt : Option Position) (name attr : Text) (hvs : Token.Value v q vs)
    (hb : s.world.budget = none) (hrest : s.stream.rest = .mark lt '<' :: .ident ⟨pos, [], name⟩ ::
      .ident ⟨pos', utf8 " ", attr⟩ :: .mark equals '=' :: (vs ++ .mark gt '>' :: after)) :
    ∃ valuePos, (t.openingTag ⟨lt, [], '<'⟩).Takes s ([.ident ⟨pos, [], name⟩],
        ⟨[.attrValue valuePos { text := some v, quote := some q } [], .attrEquals equals, .attrName pos' (utf8 " ") attr none],
          [⟨attr, some ⟨valuePos, { text := some v, quote := some q }, []⟩⟩], none⟩, ⟨none, [], gt⟩)
      (.mark lt '<' :: .ident ⟨pos, [], name⟩ :: .ident ⟨pos', utf8 " ", attr⟩ :: .mark equals '=' ::
        (vs ++ [.mark gt '>'])) := by
  obtain ⟨u, hu, hopening⟩ := openingTag_named t lt pos name rfl hrest
  obtain ⟨valuePos, u', hattributes, hu'⟩ := attributes_takes t lt name attr pos' equals gt hvs (hu.unlimited hb)
    (hu.rest_eq hrest)
  exact ⟨valuePos, u', hopening.trans (hattributes.andThen rfl), hu.trans hu'⟩

/-- A value between apostrophes that has only the first one. -/
theorem openingTag_unclosed (t : Tools) (lt pos pos' equals quote : Option Position) (name attr : Text)
    (hvs : ∀ t ∈ vs, t.isPunct '\'' = false) (hb : s.world.budget = none) (hrest : s.stream.rest = .mark lt '<' ::
      .ident ⟨pos, [], name⟩ :: .ident ⟨pos', utf8 " ", attr⟩ :: .mark equals '=' :: .mark quote '\'' :: vs) :
    ∃ used u, t.openingTag ⟨lt, [], '<'⟩ s = .error (Error.at? quote .openValue) u ∧ s.Passes used u := by
  obtain ⟨u, hu, hopening⟩ := openingTag_named t lt pos name rfl hrest
  obtain ⟨u', hu', hattributes⟩ := attributes_value t lt name attr pos' equals (hu.unlimited hb) (hu.rest_eq hrest)
  have hvalue : t.attrValue name attr (.mark quote '\'') vs u' = .error (Error.at? quote .openValue) u' := by
    unfold attrValue Token.mark
    dsimp only
    rw [if_pos rfl, untilApostrophe_none hvs]
    rfl
  refine ⟨_, u', ?_, hu.trans hu'⟩
  rw [hopening]
  simp only [Bind.bind, EStateM.bind, hattributes, hvalue]

end Tools

namespace Registry
variable {r : Registry} {name attr v : Text} {q : UInt8} {s : State} {ts xs : List Token}

/-- The nodes of an opening tag with one attribute, up to its end. -/
def openingNodes (name attr v : Text) (q : UInt8) : List Node :=
  [.tagStart name [.ident ⟨none, [], name⟩], .attrName none (utf8 " ") attr none, .attrEquals none,
    .attrValue none { text := some v, quote := some q } []]

/-- A turn at an opening tag with one attribute reads its element. -/
theorem turn_opens (r : Registry) (t : Tools) (htags : r.tagHooks.filter (·.accepts name) = [])
    (helements : r.elementHooks.filter (·.accepts name) = []) (hvoid : r.isVoid name = false)
    (h : Token.Opens name attr v q ts xs) (hb : s.world.budget = none) (hmarkup : s.markup = true)
    (hrest : s.stream.rest = ts) : ∃ lt gt nodes used u, placelessAll nodes = openingNodes name attr v q ∧
      (∀ n ∈ nodes, n.isText = false) ∧ ({ s with last := lt } : State).Passes used u ∧ u.stream.rest = xs ∧
      r.turn t s = (do
        r.body t lt name (nodes ++ [Node.closeStart gt []])
        goOn t) u := by
  cases h with
  | tag lt pos pos' equals gt hvs =>
    have hturn := turn_element (r := r) (t := t) hb hmarkup hrest rfl rfl rfl
    have hpushed : (({ s with last := lt } : State).pushText lt []) = { s with last := lt } := State.pushText_nil _ _
    rw [hpushed] at hturn
    obtain ⟨valuePos, u, hopening, hpasses⟩ := Tools.openingTag_takes (s := { s with last := lt }) t lt pos pos' equals gt
      name attr hvs hb hrest
    have hname : tagName [.ident ⟨pos, [], name⟩] = name := by simp [tagName, Token.brief]
    refine ⟨lt, gt, [.tagStart name [.ident ⟨pos, [], name⟩], .attrName pos' (utf8 " ") attr none, .attrEquals equals,
      .attrValue valuePos { text := some v, quote := some q } []], _, u, rfl, ?_, hpasses, ?_, ?_⟩
    · simp [Node.isText]
    · exact hpasses.rest_eq (by simp [hrest])
    · rw [hturn]
      refine bind_congr_left ?_ _
      rw [element_eq, hopening.bind_eq]
      dsimp only
      rw [elementRest_unhooked (hname.symm ▸ htags) (hname.symm ▸ helements) (hname.symm ▸ hvoid) rfl, hname]
      rfl

/-- A turn at an opening tag fails where the value of the attribute is not closed. -/
theorem turn_unclosed (r : Registry) (t : Tools) (lt pos pos' equals quote : Option Position) (name attr : Text)
    (hts : ∀ t ∈ ts, t.isPunct '\'' = false) (hb : s.world.budget = none) (hmarkup : s.markup = true)
    (hrest : s.stream.rest = .mark lt '<' :: .ident ⟨pos, [], name⟩ :: .ident ⟨pos', utf8 " ", attr⟩ ::
      .mark equals '=' :: .mark quote '\'' :: ts) :
    ∃ u, r.turn t s = .error (Error.at? quote .openValue) u ∧ u.world = s.world := by
  have hturn := turn_element (r := r) (t := t) hb hmarkup hrest rfl rfl rfl
  have hpushed : (({ s with last := lt } : State).pushText lt []) = { s with last := lt } := State.pushText_nil _ _
  rw [hpushed] at hturn
  obtain ⟨used, u, hopening, hpasses⟩ := Tools.openingTag_unclosed (s := { s with last := lt }) t lt pos pos' equals quote
    name attr hts hb hrest
  refine ⟨u, ?_, ?_⟩
  · rw [hturn, element_eq]
    simp only [Bind.bind, EStateM.bind, hopening]
  · obtain ⟨last, hu⟩ := hpasses.frame_unlimited hb
    rw [hu]

end Registry

/-! ## Two runs -/

/-- Nodes that are not text are added as they are. -/
theorem State.foldl_push_markup {ns : List Node} (hns : ∀ n ∈ ns, n.isText = false) (hne : ns ≠ []) (s : State) :
    ns.foldl push s = { s with sink := ns.reverse ++ s.sink, trimLine := false } := by
  have hpush (s : State) {n : Node} (hn : n.isText = false) :
      s.push n = { s with sink := n :: s.sink, trimLine := false } := by
    cases n with
    | text => cases hn
    | _ => rfl
  induction ns generalizing s with
  | nil => exact (hne rfl).elim
  | cons n ns ih =>
    rw [List.foldl_cons, hpush s (hns n (.head _))]
    cases ns with
    | nil => rfl
    | cons m ns =>
      rw [ih (fun n hn => hns n (.tail _ hn)) (by simp)]
      simp

namespace Seam
variable {r : Registry} (hr : r.Moves) {t t' : Tools} {loop : Nat → ParseM (Option ClosingTag)} (ht : Uses loop t t')

/-- Both runs write over what an element has opened with in them. -/
def opened (ns ns' : List Node) : Seam := { whole with floor := (ns.reverse, ns'.reverse) }

/-- Behind their opening tags both runs are at the same place. -/
theorem opened_alike {ns ns' : List Node} (hns : ∀ n ∈ ns, n.isText = false) (hns' : ∀ n ∈ ns', n.isText = false)
    (gt gt' : Option Position) {s s' : State} (hs : whole.Alike s s') (hempty : s.sink = [] ∧ s'.sink = []) :
    (opened ns ns').Alike ((ns ++ [Node.closeStart gt []]).foldl State.push s)
      ((ns' ++ [Node.closeStart gt' []]).foldl State.push s') := by
  have hmarkup {ns : List Node} (hns : ∀ n ∈ ns, n.isText = false) (gt : Option Position) :
      ∀ n ∈ ns ++ [Node.closeStart gt []], n.isText = false := by
    intro n hn
    rcases List.mem_append.mp hn with hn | hn
    · exact hns n hn
    · obtain rfl := List.mem_singleton.mp hn
      rfl
  have hlevel : (opened ns ns').Level ((ns ++ [Node.closeStart gt []]).reverse ++ [])
      ((ns' ++ [Node.closeStart gt' []]).reverse ++ []) :=
    ⟨[.closeStart gt []], [.closeStart gt' []], by simp [opened], by simp [opened], rfl, nofun⟩
  rw [State.foldl_push_markup (hmarkup hns gt) (by simp), State.foldl_push_markup (hmarkup hns' gt') (by simp),
    hempty.1, hempty.2]
  exact { hs with sink := hlevel, trimLine := rfl }

include hr ht in
/-- Elements that open in different ways have the same children and end in the same way. -/
theorem body_outcome (lt lt' gt gt' : Option Position) (name : Text) {ns ns' : List Node}
    (hns : ∀ n ∈ ns, n.isText = false) (hns' : ∀ n ∈ ns', n.isText = false) {s s' : State} (hs : whole.Alike s s')
    (hempty : s.sink = [] ∧ s'.sink = []) : (opened ns ns').Outcome (fun _ _ => True)
      (r.body t lt name (ns ++ [.closeStart gt []]) s) (r.body t' lt' name (ns' ++ [.closeStart gt' []]) s') := by
  unfold Registry.body
  rcases children_found hr ht name hs with ⟨kids, u, hu⟩ | hchildren
  · -- The first run finds no closing tag.
    have hkids : Returns (r.children t name) s (kids, none) u := hu
    rw [hkids.bind_eq]
    exact .error
  refine hchildren.bind fun a b u u' hu hu' hab hs => ?_
  obtain ⟨kids, closing⟩ := a
  obtain ⟨kids', closing'⟩ := b
  obtain ⟨hkids, hclosing⟩ := hab
  obtain ⟨-, -, -, hsink⟩ := Registry.children_inside hu
  obtain ⟨-, -, -, hsink'⟩ := Registry.children_inside hu'
  cases closing with
  | none => exact .error
  | some c =>
    cases closing' with
    | none => exact hclosing.elim
    | some c' =>
      obtain ⟨hcname, hctokens⟩ := hclosing
      have hmore : placelessAll (kids' ++ [.tagEnd c'.pos c.name c'.tokens]) =
          placelessAll (kids ++ [.tagEnd c.pos c.name c.tokens]) := by
        have hkids : placelessAll kids' = placelessAll kids := hkids
        simp only [placelessAll_append, hkids, placelessAll, placeless, hctokens]
      have hadded := (opened_alike hns hns' gt gt' hs ⟨hsink.trans hempty.1, hsink'.trans hempty.2⟩).foldl_push hmore
      rw [← List.foldl_append, ← List.foldl_append, ← List.append_assoc, ← List.append_assoc] at hadded
      dsimp only
      rw [hcname]
      by_cases hfold : Text.sameFold c.name name = true
      · rw [hfold]
        exact .ok trivial hadded
      · rw [if_pos (by simpa using hfold)]
        exact .error

include hr in
/-- Sources that open in different ways are read in the same way from there on. -/
theorem loop_opens (settings : Settings) {embed : Text → Text → ParseM Fragment}
    (hembed : ∀ (P : Seam) (file src : Text), P.Follows (embed file src) (embed file src) SameFragment)
    {name attr v : Text} {q q' : UInt8} {ts us xs ys : List Token} {w : World} (path : Text) (includers : List Text) (n n' : Nat)
    (htags : r.tagHooks.filter (·.accepts name) = []) (helements : r.elementHooks.filter (·.accepts name) = [])
    (hvoid : r.isVoid name = false) (hts : Token.Opens name attr v q ts xs) (hus : Token.Opens name attr v q' us ys)
    (hsame : Token.unplacedAll ys = Token.unplacedAll xs) (hplaced : Token.AllPlaced ts ∧ Token.AllPlaced us)
    (hw : w.budget = none) : ∃ ns ns', placelessAll ns = Registry.openingNodes name attr v q ∧
      placelessAll ns' = Registry.openingNodes name attr v q' ∧
      (opened ns ns').Outcome SameEnd
        (r.loop settings embed (n + 1) { world := w, path, includers, stream := .ofTokens ts })
        (r.loop settings embed (n' + 1) { world := w, path, includers, stream := .ofTokens us }) := by
  obtain ⟨lt, gt, ns, used, u, hns, hmarkup, hpasses, hrest, hturn⟩ := Registry.turn_opens
    (s := { world := w, path, includers, stream := .ofTokens ts }) r (r.tools settings embed n) htags helements hvoid hts hw
    rfl rfl
  obtain ⟨lt', gt', ns', used', u', hns', hmarkup', hpasses', hrest', hturn'⟩ := Registry.turn_opens
    (s := { world := w, path, includers, stream := .ofTokens us }) r (r.tools settings embed n') htags helements hvoid hus hw
    rfl rfl
  refine ⟨ns, ns', hns, hns', ?_⟩
  have hloop : r.loop settings embed (n + 1) { world := w, path, includers, stream := .ofTokens ts } = _ := hturn
  have hloop' : r.loop settings embed (n' + 1) { world := w, path, includers, stream := .ofTokens us } = _ := hturn'
  rw [hloop, hloop']
  have hplaced : Token.AllPlaced u.stream.rest ∧ Token.AllPlaced u'.stream.rest := by
    rw [hpasses.stream_eq, hpasses'.stream_eq, Stream.rest_skip, Stream.rest_skip]
    exact ⟨hplaced.1.drop _, hplaced.2.drop _⟩
  have huses : Uses (r.loop settings embed) (r.tools settings embed n) (r.tools settings embed n') :=
    ⟨rfl, fun P s s' hs => loop_goes hr hembed n n' P s s' hs, hembed⟩
  obtain ⟨last, hu⟩ := hpasses.frame_unlimited hw
  obtain ⟨last', hu'⟩ := hpasses'.frame_unlimited hw
  have halike : whole.Alike u u' := by
    rw [hu, hu']
    exact start_alike ⟨⟨hw, hw⟩, rfl⟩ path includers last last' (by rw [hrest, hrest', hsame]) hplaced
  have hempty : u.sink = [] ∧ u'.sink = [] := by
    rw [hu, hu']
    exact ⟨rfl, rfl⟩
  refine (body_outcome hr huses lt lt' gt gt' name hmarkup hmarkup' halike hempty).bind fun _ _ _ _ _ _ _ hs => ?_
  exact (goOn_goes huses hs).ends rfl

end Seam

/-! ## The code of an opening tag -/

namespace Code
variable {settings : Settings} {name attr v : Text} {q q' : UInt8} {ns ns' more : List Node}

/-- The code that writes an opening tag with one attribute, up to its end. -/
def openingPieces (buf name attr v : Text) (q : UInt8) : List Piece :=
  [writeText buf (utf8 "<" ++ name) none, writeText buf (utf8 " " ++ attr) none, writeText buf (utf8 "=") none,
    writeText buf (q :: (v ++ [q])) none]

theorem ofNodes_opening (settings : Settings) (hq : q ∉ v) (more : List Node) :
    ofNodes settings (Registry.openingNodes name attr v q ++ more) = (do
      let ms ← resolve settings more
      return join (openingPieces settings.buffer name attr v q ++ piecesFrom settings.buffer [] none ms)) := by
  have hresolve : resolve settings (Registry.openingNodes name attr v q ++ more) = (do
      let ms ← resolve settings more
      return Registry.openingNodes name attr v q ++ ms) := by
    simp [Registry.openingNodes, resolve, resolveNode]
  have hstatic : staticText { text := some v, quote := some q } = q :: (v ++ [q]) := by
    simp [staticText, hq]
  have hname : nameText (utf8 " ") attr none = utf8 " " ++ attr := rfl
  have hlower (ms : List Node) : lower settings.buffer (Registry.openingNodes name attr v q ++ ms) =
      join (openingPieces settings.buffer name attr v q ++ piecesFrom settings.buffer [] none ms) := by
    simp [lower, Registry.openingNodes, openingPieces, piecesFrom, nodePieces, flush, hstatic, hname, Token.pos]
  unfold ofNodes
  rw [hresolve]
  simp [hlower]

/-- Elements that open in different ways have the same code behind their values. -/
theorem ofNodes_opens (hq : q ∉ v) (hq' : q' ∉ v) (hns : placelessAll ns = Registry.openingNodes name attr v q ++ more)
    (hns' : placelessAll ns' = Registry.openingNodes name attr v q' ++ more) {w w₁ : World} {code : List Token}
    (h : ofNodes settings ns w = .ok code w₁) (w' : World) : ∃ code' w₂, ofNodes settings ns' w' = .ok code' w₂ ∧
      ∃ pieces,
        Token.unplacedAll code = Token.unplacedAll (join (openingPieces settings.buffer name attr v q ++ pieces)) ∧
        Token.unplacedAll code' = Token.unplacedAll (join (openingPieces settings.buffer name attr v q' ++ pieces)) := by
  have hconcur {ns : List Node} {q : UInt8} (hns : placelessAll ns = Registry.openingNodes name attr v q ++ more) :
      WorldM.Concur Token.unplacedAll (ofNodes settings ns)
        (ofNodes settings (Registry.openingNodes name attr v q ++ more)) :=
    ofNodes_concur settings (by rw [← hns, placelessAll_placelessAll])
  obtain ⟨first, w₂, hfirst, hcode⟩ := (hconcur hns).exists_ok h w
  rw [ofNodes_opening settings hq] at hfirst
  obtain ⟨ms, w₃, hms, hret⟩ := WorldM.bind_eq_ok hfirst
  cases hret
  have hsecond : ofNodes settings (Registry.openingNodes name attr v q' ++ more) w =
      .ok (join (openingPieces settings.buffer name attr v q' ++ piecesFrom settings.buffer [] none ms)) w₂ := by
    rw [ofNodes_opening settings hq']
    simp only [Bind.bind, EStateM.bind, hms]
    rfl
  obtain ⟨code', w₄, hcode', hsame⟩ := (hconcur hns').symm.exists_ok hsecond w'
  exact ⟨code', w₄, hcode', _, hcode, hsame.symm⟩

end Code

/-! ## Templates -/

namespace Template
variable {settings : Settings} {path src src' left name attr v : Text} {q q' : UInt8} {ts us xs ys : List Token} {w : World}

/-- No source of a template is too deep for the bound on includes. -/
theorem parseSource_ne_exhausted (settings : Settings) (path src : Text) (w w' : World) :
    Registry.standard.parseSource settings (includeBound settings) [] path src w ≠ .error .exhausted w' := by
  intro h
  have hroot : Included settings path src [] path src := .root
  have hlocated := hroot.parseSource_located False (includeBound settings)
    (fun _ _ _ hi => hi.length_lt_includeBound) (w := w) False.elim
  rw [h] at hlocated
  exact hlocated.1 rfl

/-- The loop over the tokens of a template has turns enough. -/
theorem loop_ne_exhausted {n : Nat} (hlex : Token.lex src = .ok (ts, left)) (hw : w.budget = none)
    (hn : includeBound settings = n + 1) (u : State) : Registry.standard.loop settings (Registry.standard.embedIn settings n [] path) (Registry.standard.turns w ts)
      { world := w, path, includers := [], stream := .ofTokens ts } ≠ .error .exhausted u := by
  intro hloop
  refine parseSource_ne_exhausted settings path src w u.world ?_
  have hread : Registry.standard.readTokens settings (Registry.standard.embedIn settings n [] path)
      (Registry.standard.turns w ts) ts left { world := w, path, includers := [], stream := .ofTokens ts } =
      .error .exhausted u := by
    unfold Registry.readTokens
    rw [(checkStop_unlimited (by exact hw)).bind_eq]
    simp only [Bind.bind, EStateM.bind, hloop]
  rw [hn, Registry.parseSource_lexed _ settings n [] path src w hlex, WorldM.ofParse, hread]
  rfl

/-- Of two sources that differ in their opening tags the second one is parsed if the first one is. -/
theorem parse_opens (helements : Registry.standard.elementHooks.filter (·.accepts name) = [])
    (hvoid : Registry.standard.isVoid name = false) (hlex : Token.lex src = .ok (ts, left))
    (hlex' : Token.lex src' = .ok (us, left)) (hts : Token.Opens name attr v q ts xs) (hus : Token.Opens name attr v q' us ys)
    (hsame : Token.unplacedAll ys = Token.unplacedAll xs) (hw : w.budget = none) {t : Template} {w₁ : World}
    (h : parse .standard settings path src w = .ok t w₁) : ∃ t' w₂, parse .standard settings path src' w = .ok t' w₂ ∧
      ∃ more, placelessAll t.nodes = Registry.openingNodes name attr v q ++ more ∧
        placelessAll t'.nodes = Registry.openingNodes name attr v q' ++ more := by
  obtain ⟨n, hn⟩ : ∃ n, includeBound settings = n + 1 := ⟨_, rfl⟩
  obtain ⟨k, hk⟩ : ∃ k, Registry.standard.turns w ts = k + 1 :=
    Nat.exists_eq_add_one.mpr (Nat.zero_lt_of_lt (Registry.standard.weights_lt_turns w ts))
  obtain ⟨k', hk'⟩ : ∃ k, Registry.standard.turns w us = k + 1 :=
    Nat.exists_eq_add_one.mpr (Nat.zero_lt_of_lt (Registry.standard.weights_lt_turns w us))
  obtain ⟨ns, ns', hns, hns', hloop⟩ := Seam.loop_opens Registry.standard_moves settings
    (Seam.embed_follows Registry.standard_moves settings n [] path) path [] k k' rfl helements hvoid hts hus hsame
    ⟨Token.allPlaced_of_lex hlex, Token.allPlaced_of_lex hlex'⟩ hw
  have hread := Seam.readTokens_of_loop settings ts us left ⟨hw, hw⟩ hloop
  have hparse := parse_returns h
  have hmet := parseSource_ne_exhausted settings path src' w
  rw [hn, Registry.parseSource_lexed _ settings n [] path src w hlex, hk, WorldM.ofParse] at hparse
  have hparse' := Registry.parseSource_lexed Registry.standard settings n [] path src' w hlex'
  rw [hk', WorldM.ofParse] at hparse'
  generalize Registry.readTokens _ _ _ (k + 1) ts left _ = x at hread hparse
  generalize Registry.readTokens _ _ _ (k' + 1) us left _ = x' at hread hparse'
  cases hread with
  | error => cases hparse
  | short =>
    rw [← hn] at hparse'
    exact (hmet _ hparse').elim
  | @ok _ _ s s' _ hs =>
    have hnodes : s.sink.reverse = t.nodes := congrArg Prod.fst (EStateM.Result.ok.inj hparse).1
    rw [← hn] at hparse'
    refine ⟨_, _, parse_of_parseSource hparse', ?_⟩
    obtain ⟨top, top', hsink, hsink', htop, -⟩ := hs.sink
    refine ⟨placelessAll top.reverse, ?_, ?_⟩
    · rw [← hnodes, hsink, List.reverse_append, placelessAll_append, Seam.opened, List.reverse_reverse, hns]
    · rw [hsink', List.reverse_append, placelessAll_append, Seam.opened, List.reverse_reverse, hns', placelessAll_reverse,
        placelessAll_reverse, htop]

/-- A source whose first value is not closed does not parse. -/
theorem parse_unclosed (settings : Settings) (path : Text) (lt pos pos' equals quote : Option Position)
    (hts : ∀ t ∈ ts, t.isPunct '\'' = false) (hlex : Token.lex src = .ok (.mark lt '<' :: .ident ⟨pos, [], name⟩ ::
      .ident ⟨pos', utf8 " ", attr⟩ :: .mark equals '=' :: .mark quote '\'' :: ts, left)) (hw : w.budget = none) :
    ∃ place, parse .standard settings path src w = .error (.fault path place .openValue) w := by
  obtain ⟨n, hn⟩ : ∃ n, includeBound settings = n + 1 := ⟨_, rfl⟩
  generalize hall : Token.mark lt '<' :: _ = all at hlex
  obtain ⟨k, hk⟩ : ∃ k, Registry.standard.turns w all = k + 1 :=
    Nat.exists_eq_add_one.mpr (Nat.zero_lt_of_lt (Registry.standard.weights_lt_turns w all))
  obtain ⟨u, hturn, hu⟩ := Registry.turn_unclosed (s := { world := w, path, includers := [], stream := .ofTokens all })
    .standard (Registry.tools .standard settings (Registry.embedIn .standard settings n [] path) k) lt pos pos' equals quote
    name attr hts hw rfl hall.symm
  have hloop : Registry.loop .standard settings (Registry.embedIn .standard settings n [] path)
      (Registry.standard.turns w all) { world := w, path, includers := [], stream := .ofTokens all } =
      .error (Error.at? quote .openValue) u := by
    rw [hk]
    exact hturn
  exact ⟨_, parse_of_loop_error hlex hw hu hn hloop⟩

/-- With its value between apostrophes an element is compiled like between double quotes, but for the quotes that are
written, if no apostrophe comes right behind its opening tag or the value is one character. The rest of the source may be
anything else. An apostrophe there takes the second one of a longer value as the beginning of the character literal of
the `>` between them; if no other one comes behind it, the value is reported as not terminated. -/
theorem parse_requoted (settings : Settings) (path : Text) {cs : List Char} {r : Text} {w w₁ w₂ : World} {t : Template}
    {code : List Token} (hcs : ∀ c ∈ cs, c ∉ '\\' :: Text.brackets) (hw : w.budget = none)
    (hparse : parse .standard settings path (utf8 "<p a=\"" ++ Text.ofRunes cs ++ utf8 "\">" ++ r) w = .ok t w₁)
    (hcode : Code.ofNodes settings t.nodes w₁ = .ok code w₂) :
    ((∃ c, cs = [c] ∧ c ≠ '\n') ∨ r.head? ≠ some 0x27 → ∃ t' w₁' code' w₂',
      parse .standard settings path (utf8 "<p a='" ++ Text.ofRunes cs ++ utf8 "'>" ++ r) w = .ok t' w₁' ∧
      Code.ofNodes settings t'.nodes w₁' = .ok code' w₂' ∧ ∃ pieces,
        Token.unplacedAll code = Token.unplacedAll (Code.join
          (Code.openingPieces settings.buffer (utf8 "p") (utf8 "a") (Text.ofRunes cs) 0x22 ++ pieces)) ∧
        Token.unplacedAll code' = Token.unplacedAll (Code.join
          (Code.openingPieces settings.buffer (utf8 "p") (utf8 "a") (Text.ofRunes cs) 0x27 ++ pieces))) ∧
    ∀ r', r = 0x27 :: r' → 0x27 ∉ r' → (∀ c, cs = [c] → c = '\n') → ∃ pos,
      parse .standard settings path (utf8 "<p a='" ++ Text.ofRunes cs ++ utf8 "'>" ++ r) w =
        .error (.fault path pos .openValue) w := by
  obtain ⟨name, hname⟩ : ∃ name : Word, name.text = utf8 "p" := ⟨⟨'p', [], .inr (by decide +kernel), by simp⟩, rfl⟩
  obtain ⟨attr, hattr⟩ : ∃ attr : Word, attr.text = utf8 "a" := ⟨⟨'a', [], .inr (by decide +kernel), by simp⟩, rfl⟩
  have hsource : utf8 "<p a=\"" ++ Text.ofRunes cs ++ utf8 "\">" ++ r =
      Token.openingSource name.text attr.text (Text.ofRunes cs) 0x22 ++ r := by
    have hquote : String.utf8EncodeChar '"' = [0x22] := rfl
    simp [hname, hattr, Token.openingSource, utf8, hquote]
  have hsource' : utf8 "<p a='" ++ Text.ofRunes cs ++ utf8 "'>" ++ r =
      Token.openingSource name.text attr.text (Text.ofRunes cs) 0x27 ++ r := by
    have hquote : String.utf8EncodeChar '\'' = [0x27] := rfl
    simp [hname, hattr, Token.openingSource, utf8, hquote]
  have hdouble : 0x22 ∉ Text.ofRunes cs :=
    fun hmem => hcs _ (Text.mem_of_mem_ofRunes (by decide) hmem) (by decide)
  have hsingle : 0x27 ∉ Text.ofRunes cs :=
    fun hmem => hcs _ (Text.mem_of_mem_ofRunes (by decide) hmem) (by decide)
  have hplain : Registry.standard.elementHooks.filter (·.accepts name.text) = [] ∧
      Registry.standard.isVoid name.text = false := by
    rw [hname, Registry.standard_eq]
    decide +kernel
  rw [hsource] at hparse
  rw [hsource']
  obtain ⟨ts, left, _, _, hlex, -⟩ := Registry.parseSource_returns (parse_returns hparse)
  constructor
  · intro hr
    obtain ⟨us, xs, ys, hlex', hts, hus, hsame⟩ := Token.lex_requoted name attr hcs hr hlex
    obtain ⟨t', w₁', hparse', more, hnodes, hnodes'⟩ := parse_opens hplain.1 hplain.2 hlex hlex' hts hus hsame hw hparse
    obtain ⟨code', w₂', hcode', pieces, hpieces, hpieces'⟩ :=
      Code.ofNodes_opens hdouble hsingle hnodes hnodes' hcode w₁'
    rw [hname, hattr] at hpieces hpieces'
    exact ⟨t', w₁', code', w₂', hparse', hcode', pieces, hpieces, hpieces'⟩
  · intro r' hrest hr hmore
    subst hrest
    obtain ⟨lt, pos, pos', equals, quote, us, hlex', hus⟩ := Token.lex_unclosed name attr hcs hmore hr hlex
    exact parse_unclosed settings path lt pos pos' equals quote hus hlex' hw

/-- A value of three characters, before content that begins with an apostrophe and content that has one later. -/
theorem parse_requoted_value : (∀ c ∈ "b 2".toList, c ∉ '\\' :: Text.brackets) ∧ ({} : World).budget = none ∧
    (utf8 "it's @x</p>").head? ≠ some 0x27 ∧ 0x27 ∉ utf8 "tis</p>" ∧ (∀ c, "b 2".toList = [c] → c = '\n') ∧
    (∃ t w₁ code w₂ t' w₁' code' w₂' pieces,
      parse .standard { markdown := .ok } (utf8 "index.rhtml") (utf8 "<p a=\"b 2\">it's @x</p>") {} = .ok t w₁ ∧
      Code.ofNodes { markdown := .ok } t.nodes w₁ = .ok code w₂ ∧
      parse .standard { markdown := .ok } (utf8 "index.rhtml") (utf8 "<p a='b 2'>it's @x</p>") {} = .ok t' w₁' ∧
      Code.ofNodes { markdown := .ok } t'.nodes w₁' = .ok code' w₂' ∧
      Token.unplacedAll code = Token.unplacedAll (Code.join
        (Code.openingPieces (utf8 "html") (utf8 "p") (utf8 "a") (utf8 "b 2") 0x22 ++ pieces)) ∧
      Token.unplacedAll code' = Token.unplacedAll (Code.join
        (Code.openingPieces (utf8 "html") (utf8 "p") (utf8 "a") (utf8 "b 2") 0x27 ++ pieces))) ∧
    ∃ t w₁ code w₂ pos,
      parse .standard { markdown := .ok } (utf8 "index.rhtml") (utf8 "<p a=\"b 2\">'tis</p>") {} = .ok t w₁ ∧
      Code.ofNodes { markdown := .ok } t.nodes w₁ = .ok code w₂ ∧
      parse .standard { markdown := .ok } (utf8 "index.rhtml") (utf8 "<p a='b 2'>'tis</p>") {} =
        .error (.fault (utf8 "index.rhtml") pos .openValue) {} := by
  have hcs : ∀ c ∈ "b 2".toList, c ∉ '\\' :: Text.brackets := by
    have hall : "b 2".toList.all (· ∉ '\\' :: Text.brackets) = true := by decide +kernel
    simpa using hall
  have hr : (utf8 "it's @x</p>").head? ≠ some 0x27 := by decide +kernel
  have hr' : 0x27 ∉ utf8 "tis</p>" := by decide +kernel
  have hmore : ∀ c, "b 2".toList = [c] → c = '\n' := by
    intro c hc
    have hlength := congrArg List.length hc
    cases hlength
  have hcompiles (src : Text) (h : WorldM.returned (fun _ => true) ((parse .standard { markdown := .ok }
      (utf8 "index.rhtml") src >>= fun t => Code.ofNodes { markdown := .ok } t.nodes) {}) = true) :
      ∃ t w₁ code w₂, parse .standard { markdown := .ok } (utf8 "index.rhtml") src {} = .ok t w₁ ∧
        Code.ofNodes { markdown := .ok } t.nodes w₁ = .ok code w₂ := by
    obtain ⟨code, w₂, hcompiled, -⟩ := WorldM.exists_of_returned h
    obtain ⟨t, w₁, hparse, hcode⟩ := WorldM.bind_eq_ok hcompiled
    exact ⟨t, w₁, code, w₂, hparse, hcode⟩
  obtain ⟨t, w₁, code, w₂, hparse, hcode⟩ := hcompiles (utf8 "<p a=\"b 2\">it's @x</p>") (by
    rw [Registry.standard_eq]
    decide +kernel)
  obtain ⟨u, v₁, code₁, v₂, hparse₁, hcode₁⟩ := hcompiles (utf8 "<p a=\"b 2\">'tis</p>") (by
    rw [Registry.standard_eq]
    decide +kernel)
  obtain ⟨hsame, -⟩ := parse_requoted { markdown := .ok } (utf8 "index.rhtml") hcs rfl hparse hcode
  obtain ⟨-, hunclosed⟩ := parse_requoted { markdown := .ok } (utf8 "index.rhtml") hcs rfl hparse₁ hcode₁
  obtain ⟨t', w₁', code', w₂', hparse', hcode', pieces, hpieces, hpieces'⟩ := hsame (.inr hr)
  obtain ⟨pos, herror⟩ := hunclosed (utf8 "tis</p>") rfl hr' hmore
  exact ⟨hcs, rfl, hr, hr', hmore,
    ⟨t, w₁, code, w₂, t', w₁', code', w₂', pieces, hparse, hcode, hparse', hcode', hpieces, hpieces'⟩,
    u, v₁, code₁, v₂, pos, hparse₁, hcode₁, herror⟩

end Template
end Atmark
