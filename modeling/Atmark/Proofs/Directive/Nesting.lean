import Atmark.Proofs.Directive.Declaration
import Atmark.Proofs.Parse.Nesting

/-! The directives of the language keep regions well nested. Those that declare something add no nodes
at all; the others add whole nodes, read in regions of their own, taken from the cache or left by an
included template. -/
namespace Atmark
open Node ParseM

namespace Directive
open State.Sound

/-! ## Loops and conditions -/

section Flow
variable {t : Tools} (ht : t.Sound)

theorem rangeClause_whole (v : Ident) (pos : Option Position) (first last : List Token)
    (inclusive : Bool) : Whole (rangeClause v pos first last inclusive) := by
  have hequals : Whole (if inclusive then [sign pos '=' ""] else []) := by
    split
    · exact .leaf rfl rfl .nil
    · exact .nil
  refine .append (.append (.append (.append (.append ?_ ?_) ?_) hequals) ?_) ?_
  · exact .of_leaves (by simp [keyword, sign, isTagPart, lists])
  · exact ofTokens_whole _
  · exact .of_leaves (by simp [keyword, sign, isTagPart, lists])
  · exact ofTokens_whole _
  · exact .of_leaves (by simp [keyword, sign, isTagPart, lists])

theorem iterationClause_whole (vars : Ident × Option Ident) (word : Token) (expr : List Token) :
    Whole (iterationClause vars word expr) := by
  unfold iterationClause
  split
  rename_i first second hv
  have hw : ∀ n ∈ [first, second], n.isTagPart = false ∧ n.lists = [] := by
    split at hv <;> cases hv <;> simp [keyword, isTagPart, lists]
  refine .append (.of_leaves ?_) (ofTokens_whole _)
  simpa [keyword, sign, isTagPart, lists] using hw

theorem forClause_whole {header : List Token} {ns : List Node} (h : forClause header = .ok ns) :
    Whole ns := by
  unfold forClause at h
  split at h
  · cases h
    exact ofTokens_whole header
  · rename_i before word expr _
    cases hp : pattern before word.pos with
    | error e => rw [hp] at h; cases h
    | ok vars =>
      rw [hp] at h
      change patternClause vars word expr = .ok ns at h
      unfold patternClause at h
      split at h
      · cases h
      split at h
      · cases h
        exact iterationClause_whole _ _ _
      · rename_i first pos after _
        dsimp only at h
        generalize (if (after.head?.any fun t => t.isPunct '=' && t.glued) = true then after.tail
          else after) = last at h
        split at h
        · cases h
        split at h
        · cases h
          exact rangeClause_whole _ _ _ _ _
        · cases h

include ht

theorem block_sound (f : Frame) (ts : List Token) :
    Keeps State.Sound (block t f ts) fun n => Whole [n] := by
  refine (Tools.region_sound ht f ts false).bind fun ns hn => ?_
  exact .pure (.cons rfl (by simpa [lists] using hn) .nil)

theorem forLoop_sound (id : Ident) : Keeps State.Sound (forLoop t id) fun _ => True := by
  refine Keeps.rest.bind fun ts _ => ?_
  refine (ofNodes.untilBrace _ _ ts).bind fun ⟨header, f, us⟩ _ => ?_
  dsimp only
  split
  · exact .throw _
  · rename_i clause hc
    refine (block_sound ht f us).bind fun body hb => ?_
    refine (emit_sound (.leaf rfl rfl .nil)).bind fun _ _ => ?_
    refine (emit_sound (forClause_whole hc)).bind fun _ _ => ?_
    exact (emit_sound hb).bind fun _ _ => .pure trivial

theorem whileLoop_sound (id : Ident) : Keeps State.Sound (whileLoop t id) fun _ => True := by
  refine Keeps.rest.bind fun ts _ => ?_
  refine (ofNodes.untilBrace _ _ ts).bind fun ⟨header, f, us⟩ _ => ?_
  refine .guard fun _ => ?_
  refine (block_sound ht f us).bind fun body hb => ?_
  refine (emit_sound (.leaf rfl rfl .nil)).bind fun _ _ => ?_
  refine (emit_sound (ofTokens_whole _)).bind fun _ _ => ?_
  exact (emit_sound hb).bind fun _ _ => .pure trivial

theorem branch_sound (id : Ident) : Keeps State.Sound (branch t id) fun _ => True := by
  refine Keeps.rest.bind fun ts _ => ?_
  refine (ofNodes.untilBrace _ _ ts).bind fun ⟨header, f, us⟩ _ => ?_
  refine .guard fun _ => ?_
  refine (block_sound ht f us).bind fun body hb => ?_
  exact (emit_sound (ofTokens_whole _)).bind fun _ _ => emit_sound hb

theorem elseBranches_sound (n : Nat) : Keeps State.Sound (elseBranches t n) fun _ => True := by
  induction n with
  | zero => exact .throw _
  | succ n ih =>
    refine Keeps.rest.bind fun ts _ => ?_
    split
    · exact .pure trivial
    · split
      · split
        · refine (ofNodes.skip _).bind fun _ _ => ?_
          refine (emit_sound (.leaf rfl rfl (.leaf rfl rfl .nil))).bind fun _ _ => ?_
          exact (branch_sound ht _).bind fun _ _ => ih
        · exact .pure trivial
      · split
        · refine (ofNodes.skip _).bind fun _ _ => ?_
          refine (block_sound ht _ _).bind fun body hb => ?_
          exact emit_sound (hb.leaf rfl rfl)
        · exact .pure trivial
      · exact .pure trivial

theorem condition_sound (id : Ident) : Keeps State.Sound (condition t id) fun _ => True := by
  refine (emit_sound (.leaf rfl rfl .nil)).bind fun _ _ => ?_
  refine (branch_sound ht id).bind fun _ _ => ?_
  refine Keeps.rest.bind fun ts _ => ?_
  exact (elseBranches_sound ht _).bind fun _ _ => .pure trivial

end Flow

/-! ## Sections -/

theorem contextCall_whole (id : Ident) (method : String) (f : Frame) {args : List Node}
    (h : WellNested args) : Whole [contextCall id method f args] := by
  have hcall : WellNested [keyword (.ident id) contextName "", sign id.pos '.' "",
      keyword (.ident id) (utf8 method) "", .group f args] := by
    refine .leaf rfl rfl rfl (.leaf rfl rfl rfl (.leaf rfl rfl rfl (.cons rfl rfl ?_ .nil)))
    simpa [lists] using h
  exact .cons rfl (by simpa [contextCall, lists] using hcall) .nil

theorem renderBody_sound (id : Ident) : Keeps State.Sound (renderBody id) fun _ => True := by
  have hcall (f : Frame) : Keeps State.Sound (do
      emit [contextCall id "RenderBody" f []]
      return Outcome.next) fun _ => True :=
    (emit_sound (contextCall_whole id _ f .nil)).bind fun _ _ => .pure trivial
  refine callArguments_keeps.bind fun args _ => ?_
  dsimp only
  split
  · refine (ofNodes.skip _).bind fun _ _ => ?_
    exact .guard fun _ => hcall _
  · exact hcall _

section Sections
variable {t : Tools} (ht : t.Sound)
include ht

theorem defineSection_sound (id : Ident) : Keeps State.Sound (defineSection t id) fun _ => True := by
  refine (argument_keeps ofNodes id _).bind fun tok _ => ?_
  split
  · exact .unexpected _ _
  · refine (ofNodes.skip _).bind fun _ _ => ?_
    refine Keeps.get.bind fun s _ => ?_
    split
    · exact .fail _ _
    · refine (ofNodes.skip _).bind fun _ _ => ?_
      refine (Tools.region_sound ht _ _ _).bind fun nodes hn => ?_
      refine (emit_sound (.cons rfl (by simpa [lists] using hn) .nil)).bind fun _ _ => ?_
      exact ofNodes.trimLine.bind fun _ _ => .pure trivial

theorem renderSection_sound (id : Ident) : Keeps State.Sound (renderSection t id) fun _ => True := by
  refine callArguments_keeps.bind fun args _ => ?_
  split
  · exact .fail _ _
  · refine (ofNodes.skip _).bind fun _ _ => ?_
    refine (Tools.region_sound ht _ _ _).bind fun args ha => ?_
    refine .guard fun _ => ?_
    exact (emit_sound (contextCall_whole id _ _ ha)).bind fun _ _ => .pure trivial

end Sections

/-! ## Contents of other files -/

theorem laterContent_sound (name : Text) (pos : Option Position) (markdown : Bool) :
    Keeps State.Sound (laterContent name pos markdown) fun _ => True := by
  refine (checkName_keeps name pos).bind fun _ _ => ?_
  refine Keeps.get.bind fun s _ => ?_
  exact (emit_sound (.leaf rfl rfl .nil)).bind fun _ _ => .pure trivial

theorem cacheKey_sound (kind : ContentKind) (name : Text) :
    Keeps State.Sound (cacheKey? kind name)
      fun found => ∀ c k, found = some (c, k) → ∀ e ∈ c.entries, Whole e.2.nodes := by
  refine Keeps.get.bind fun s hs => ?_
  split
  · exact .pure (by simp)
  · rename_i c hc
    split
    · exact .pure (by simp)
    · refine .pure fun c' k hk => ?_
      obtain ⟨_, _, h⟩ := Option.map_eq_some_iff.mp hk
      cases h
      exact hs.cache c hc

section Contents
variable {convert : Text → Text → ParseM Fragment}
  (hc : ∀ data file, Keeps State.Sound (convert data file) fun f => Whole f.nodes)
include hc

theorem freshContent_sound (t : Tools) (name : Text) (pos : Option Position) :
    Keeps State.Sound (freshContent t name pos convert) fun f => Whole f.nodes :=
  (readContent_keeps ofNodes t name pos).bind fun found _ => hc found.1 found.2

/-- What comes from the cache was whole when it was put there. -/
theorem cachedContent_sound (t : Tools) (kind : ContentKind) (name : Text) (pos : Option Position) :
    Keeps State.Sound (cachedContent t kind name pos convert) fun f => Whole f.nodes := by
  refine (cacheKey_sound kind name).bind fun found hfound => ?_
  split
  · exact freshContent_sound hc t name pos
  · rename_i cache key
    have hcache := hfound cache key rfl
    split
    · rename_i fragment hf
      refine (ofNodes.note _ _).bind fun _ _ => .pure ?_
      obtain ⟨e, he, rfl⟩ := Option.map_eq_some_iff.mp hf
      exact hcache e (List.mem_of_find?_eq_some he)
    · refine (ofNodes.note _ _).bind fun _ _ => ?_
      refine (freshContent_sound hc t name pos).bind fun fragment hf => ?_
      refine Keeps.bind (.modify fun s hs => ⟨hs.sink, ?_⟩) fun _ _ => .pure hf
      intro c hcs e he
      obtain ⟨c₀, hc₀, rfl⟩ := Option.map_eq_some_iff.mp hcs
      rcases List.mem_cons.mp he with rfl | he
      · exact hf
      · exact hs.cache c₀ hc₀ e (List.mem_filter.mp he).1

end Contents

/-- Writes what a fragment holds. -/
theorem emitFragment_sound {m : ParseM Fragment}
    (h : Keeps State.Sound m fun f => Whole f.nodes) : Keeps State.Sound (do
      emit (← m).nodes
      return Outcome.next) fun _ => True :=
  h.bind fun _ hf => (emit_sound hf).bind fun _ _ => .pure trivial

theorem htmlFile_sound (cached : Bool) (t : Tools) (id : Ident) :
    Keeps State.Sound (htmlFile cached t id) fun _ => True := by
  refine (pathArgument_keeps ofNodes id).bind fun ⟨name, pos⟩ _ => ?_
  dsimp only
  split
  · exact laterContent_sound name pos false
  · refine emitFragment_sound (cachedContent_sound ?_ t .html name pos)
    exact fun data _ => .pure (.leaf rfl rfl .nil)

theorem markdownFile_sound (cached : Bool) (t : Tools) (id : Ident) :
    Keeps State.Sound (markdownFile cached t id) fun _ => True := by
  refine (pathArgument_keeps ofNodes id).bind fun ⟨name, pos⟩ _ => ?_
  dsimp only
  split
  · exact laterContent_sound name pos true
  · refine emitFragment_sound (cachedContent_sound ?_ t .markdown name pos)
    exact fun data _ => (markdownText_keeps t data pos).bind fun _ _ => .pure (.leaf rfl rfl .nil)

theorem markdown_sound (t : Tools) (id : Ident) : Keeps State.Sound (markdown t id) fun _ => True := by
  refine (markdownSource_keeps ofNodes id).bind fun ⟨src, pos⟩ _ => ?_
  refine (ofNodes.skip _).bind fun _ _ => ?_
  refine (markdownText_keeps t src pos).bind fun _ _ => ?_
  exact (emitText_sound _ _).bind fun _ _ => .pure trivial

section Templates
variable {t : Tools} (ht : t.Sound)
include ht

theorem embedTemplate_sound (pos : Option Position) (src file : Text) :
    Keeps State.Sound (embedTemplate t pos src file) fun f => Whole f.nodes := by
  refine Keeps.get.bind fun s _ => ?_
  refine .guard fun _ => ?_
  exact (ofNodes.note _ _).bind fun _ _ => ht.embed file src

theorem templateFile_sound (cached : Bool) (id : Ident) :
    Keeps State.Sound (templateFile cached t id) fun _ => True := by
  have hwrite (fragment : Fragment) (hf : Whole fragment.nodes) : Keeps State.Sound (do
      declare fun d => fragment.injects.foldl Declarations.addInject
        (fragment.imports.foldl Declarations.addImport d)
      emit fragment.nodes
      return Outcome.next) fun _ => True := by
    refine (ofNodes.declare _).bind fun _ _ => ?_
    exact (emit_sound hf).bind fun _ _ => .pure trivial
  refine (pathArgument_keeps ofNodes id).bind fun ⟨name, pos⟩ _ => ?_
  dsimp only
  split
  · exact (cachedContent_sound (embedTemplate_sound ht pos) t _ name pos).bind hwrite
  · exact (freshContent_sound (embedTemplate_sound ht pos) t name pos).bind hwrite

end Templates

/-- Every directive of the language keeps regions well nested. -/
theorem builtin_sound {d : Directive} (hd : d ∈ builtinDirectives) {t : Tools} (ht : t.Sound)
    (id : Ident) : Keeps State.Sound (d.run t id) fun _ => True := by
  simp only [builtinDirectives, List.mem_cons, List.not_mem_nil, or_false] at hd
  rcases hd with rfl | rfl | rfl | rfl | rfl | rfl | rfl | rfl | rfl | rfl | rfl | rfl | rfl | rfl |
    rfl | rfl | rfl | rfl | rfl | rfl | rfl | rfl | rfl
  · exact model_keeps ofNodes id
  · exact viewName_keeps ofNodes id
  · exact parameter_keeps ofNodes id
  · exact parameter_keeps ofNodes id
  · exact use_keeps ofNodes id
  · exact inject_keeps ofNodes id
  · exact codeSection_keeps ofNodes id
  · exact codeSection_keeps ofNodes id
  · exact codeSection_keeps ofNodes id
  · exact forLoop_sound ht id
  · exact whileLoop_sound ht id
  · exact condition_sound ht id
  · exact .fail _ _
  · exact defineSection_sound ht id
  · exact renderSection_sound ht id
  · exact renderBody_sound id
  · exact htmlFile_sound true t id
  · exact htmlFile_sound false t id
  · exact templateFile_sound ht true id
  · exact templateFile_sound ht false id
  · exact markdown_sound t id
  · exact markdownFile_sound true t id
  · exact markdownFile_sound false t id

end Directive

/-- The environment element leaves its children or nothing. -/
theorem Environment.run_whole {c : ElementContext} {ns : List Node} (hc : WellNested c.children)
    (h : run c = .ok (some ns)) : Whole ns := by
  unfold run at h
  cases hi : listed? c "include" with
  | error e => rw [hi] at h; cases h
  | ok includes =>
    cases he : listed? c "exclude" with
    | error e => rw [hi, he] at h; cases h
    | ok excludes =>
      rw [hi, he] at h
      simp only [bind, Except.bind] at h
      split at h
      · cases h
      · cases h
        split
        · exact hc.whole
        · exact .nil

theorem Registry.standard_sound : standard.Sound where
  tagHooks := rfl
  elementHooks := by
    intro h hh c ns hc hn
    rw [List.mem_singleton.mp hh] at hn
    exact Environment.run_whole hc hn
  directives := fun d hd t ht id => Directive.builtin_sound hd ht id

/-- Whatever a template includes, and whichever environment it is compiled for, its nodes are well
nested when nothing was cached before. -/
theorem Template.parse_wellNested {settings : Settings} {path src : Text} {w w' : World}
    {t : Template} (hw : ∀ c, w.cache = some c → c.entries = [])
    (h : Template.parse .standard settings path src w = .ok t w') : WellNested t.nodes := by
  have hempty : w.Sound := by
    intro c hc e he
    rw [hw c hc] at he
    cases he
  exact (Registry.parseSource_sound Registry.standard_sound settings _ hempty
    (Template.parse_returns h)).1

/-- Names that are in order already make up their set. -/
theorem tagSet_of_sorted {names : List Text}
    (hd : (names.map Text.lower).eraseDups = names.map Text.lower)
    (hs : (names.map Text.lower).Pairwise fun a b => Text.le a b = true) :
    tagSet names = names.map Text.lower := by
  unfold tagSet Text.sort
  rw [hd]
  exact List.mergeSort_of_pairwise hs

/-- The registry with its sets of names written out, which can be computed with. -/
theorem Registry.standard_eq : standard =
    { directives := builtinDirectives, elementHooks := [Environment.hook],
      voidTags := defaultVoidTags.map Text.lower,
      rawTextTags := defaultRawTextTags.map Text.lower } := by
  unfold standard
  rw [tagSet_of_sorted (by decide +kernel) (by decide +kernel),
    tagSet_of_sorted (by decide +kernel) (by decide +kernel)]

/-- Attributes of every form, elements that are void, closed in themselves, closed in other letters, in
a group and in the body of a loop, and a template included in an environment element. -/
theorem Template.parse_wellNested_list : ∃ t w',
    Template.parse .standard
      { environment := utf8 "dev", files := some ⟨[(utf8 "p", utf8 "<b>k</b>")], false⟩,
        markdown := .ok }
      (utf8 "a")
      (utf8 "<ul id=\"a\" n=1 x=b-c v=@y hidden>@for x in xs \x7b<li>@x<br/></LI>\x7d<hr></ul>" ++
        utf8 "(<a/>)<environment include=\"dev\">@rusthtmlfile \"p\"</environment>")
      { cache := some {} } = .ok t w' ∧ WellNested t.nodes := by
  have hok : WorldM.returned (fun _ => true) (Template.parse .standard
      { environment := utf8 "dev", files := some ⟨[(utf8 "p", utf8 "<b>k</b>")], false⟩,
        markdown := .ok }
      (utf8 "a")
      (utf8 "<ul id=\"a\" n=1 x=b-c v=@y hidden>@for x in xs \x7b<li>@x<br/></LI>\x7d<hr></ul>" ++
        utf8 "(<a/>)<environment include=\"dev\">@rusthtmlfile \"p\"</environment>")
      { cache := some {} }) = true := by
    rw [Registry.standard_eq]
    decide +kernel
  obtain ⟨t, w', h, -⟩ := WorldM.exists_of_returned hok
  refine ⟨t, w', h, parse_wellNested ?_ h⟩
  rintro c ⟨⟩
  rfl

end Atmark
