import Atmark.Proofs.Directive.Declaration
import Atmark.Proofs.Parse.Growth

/-! The directives of the language only add nodes to the region, so what stands in it stays there to the
end of the region (`Finishes.grows`). -/
namespace Atmark
open ParseM

namespace Directive
variable {P : State → Prop} (hP : Growing P) {t : Tools}
include hP

/-- A step whose nodes are added, and the directive is done. -/
theorem emitted_grows {α : Type} {m : ParseM α} (hm : Keeps P m fun _ => True) (f : α → List Node) :
    Keeps P (do emit (f (← m)); return Outcome.next) fun _ => True :=
  hm.bind fun _ _ => (emit_grows hP _).bind fun _ _ => .pure trivial

omit hP in
theorem block_keeps (hP : OfSink P) (f : Frame) (ts : List Token) :
    Keeps P (block t f ts) fun _ => True :=
  (Tools.region_keeps hP _ _ _).bind fun _ _ => .pure trivial

theorem forLoop_grows (id : Ident) : Keeps P (forLoop t id) fun _ => True := by
  refine Keeps.rest.bind fun ts _ => ?_
  refine (hP.ofNodes.untilBrace _ _ ts).bind fun ⟨header, f, us⟩ _ => ?_
  dsimp only
  split
  · exact .throw _
  · refine (block_keeps hP.ofSink f us).bind fun body _ => ?_
    refine (emit_grows hP _).bind fun _ _ => ?_
    refine (emit_grows hP _).bind fun _ _ => ?_
    exact (emit_grows hP _).bind fun _ _ => .pure trivial

theorem whileLoop_grows (id : Ident) : Keeps P (whileLoop t id) fun _ => True := by
  refine Keeps.rest.bind fun ts _ => ?_
  refine (hP.ofNodes.untilBrace _ _ ts).bind fun ⟨header, f, us⟩ _ => ?_
  refine .guard fun _ => ?_
  refine (block_keeps hP.ofSink f us).bind fun body _ => ?_
  refine (emit_grows hP _).bind fun _ _ => ?_
  refine (emit_grows hP _).bind fun _ _ => ?_
  exact (emit_grows hP _).bind fun _ _ => .pure trivial

theorem branch_grows (id : Ident) : Keeps P (branch t id) fun _ => True := by
  refine Keeps.rest.bind fun ts _ => ?_
  refine (hP.ofNodes.untilBrace _ _ ts).bind fun ⟨header, f, us⟩ _ => ?_
  refine .guard fun _ => ?_
  refine (block_keeps hP.ofSink f us).bind fun body _ => ?_
  exact (emit_grows hP _).bind fun _ _ => emit_grows hP _

theorem elseBranches_grows (n : Nat) : Keeps P (elseBranches t n) fun _ => True := by
  induction n with
  | zero => exact .throw _
  | succ n ih =>
    refine Keeps.rest.bind fun ts _ => ?_
    split
    · exact .pure trivial
    · split
      · split
        · refine (hP.ofNodes.skip _).bind fun _ _ => ?_
          refine (emit_grows hP _).bind fun _ _ => ?_
          exact (branch_grows hP _).bind fun _ _ => ih
        · exact .pure trivial
      · split
        · refine (hP.ofNodes.skip _).bind fun _ _ => ?_
          exact (block_keeps hP.ofSink _ _).bind fun body _ => emit_grows hP _
        · exact .pure trivial
      · exact .pure trivial

theorem condition_grows (id : Ident) : Keeps P (condition t id) fun _ => True := by
  refine (emit_grows hP _).bind fun _ _ => ?_
  refine (branch_grows hP id).bind fun _ _ => ?_
  refine Keeps.rest.bind fun ts _ => ?_
  exact (elseBranches_grows hP _).bind fun _ _ => .pure trivial

theorem renderBody_grows (id : Ident) : Keeps P (renderBody id) fun _ => True := by
  have hcall (f : Frame) : Keeps P (do
      emit [contextCall id "RenderBody" f []]
      return Outcome.next) fun _ => True :=
    (emit_grows hP _).bind fun _ _ => .pure trivial
  refine callArguments_keeps.bind fun args _ => ?_
  dsimp only
  split
  · refine (hP.ofNodes.skip _).bind fun _ _ => ?_
    exact .guard fun _ => hcall _
  · exact hcall _

theorem defineSection_grows (id : Ident) : Keeps P (defineSection t id) fun _ => True := by
  refine (argument_keeps hP.ofNodes id _).bind fun tok _ => ?_
  split
  · exact .unexpected _ _
  · refine (hP.ofNodes.skip _).bind fun _ _ => ?_
    refine Keeps.get.bind fun s _ => ?_
    split
    · exact .fail _ _
    · refine (hP.ofNodes.skip _).bind fun _ _ => ?_
      refine (Tools.region_keeps hP.ofSink _ _ _).bind fun nodes _ => ?_
      refine (emit_grows hP _).bind fun _ _ => ?_
      exact hP.ofNodes.trimLine.bind fun _ _ => .pure trivial

theorem renderSection_grows (id : Ident) : Keeps P (renderSection t id) fun _ => True := by
  refine callArguments_keeps.bind fun args _ => ?_
  split
  · exact .fail _ _
  · refine (hP.ofNodes.skip _).bind fun _ _ => ?_
    refine (Tools.region_keeps hP.ofSink _ _ _).bind fun args _ => ?_
    refine .guard fun _ => ?_
    exact (emit_grows hP _).bind fun _ _ => .pure trivial

theorem laterContent_grows (name : Text) (pos : Option Position) (markdown : Bool) :
    Keeps P (laterContent name pos markdown) fun _ => True := by
  refine (checkName_keeps name pos).bind fun _ _ => ?_
  refine Keeps.get.bind fun s _ => ?_
  exact (emit_grows hP _).bind fun _ _ => .pure trivial

section Contents
variable {convert : Text → Text → ParseM Fragment}
  (hc : ∀ data file, Keeps P (convert data file) fun _ => True)
include hc

theorem freshContent_keeps (name : Text) (pos : Option Position) :
    Keeps P (freshContent t name pos convert) fun _ => True :=
  (readContent_keeps hP.ofNodes t name pos).bind fun found _ => hc found.1 found.2

theorem cachedContent_keeps (kind : ContentKind) (name : Text) (pos : Option Position) :
    Keeps P (cachedContent t kind name pos convert) fun _ => True := by
  have hkey : Keeps P (cacheKey? kind name) fun _ => True := by
    refine Keeps.get.bind fun s _ => ?_
    split
    · exact .pure trivial
    · split <;> exact .pure trivial
  refine hkey.bind fun found _ => ?_
  split
  · exact freshContent_keeps hP hc name pos
  · split
    · exact (hP.ofNodes.note _ _).bind fun _ _ => .pure trivial
    · refine (hP.ofNodes.note _ _).bind fun _ _ => ?_
      refine (freshContent_keeps hP hc name pos).bind fun fragment _ => ?_
      exact Keeps.bind (.modify fun s hs => hP.ofSink _ _ hs rfl) fun _ _ => .pure trivial

end Contents

theorem htmlFile_grows (cached : Bool) (id : Ident) : Keeps P (htmlFile cached t id) fun _ => True := by
  refine (pathArgument_keeps hP.ofNodes id).bind fun ⟨name, pos⟩ _ => ?_
  dsimp only
  split
  · exact laterContent_grows hP name pos false
  · exact emitted_grows hP (cachedContent_keeps hP (fun _ _ => .pure trivial) .html name pos) _

theorem markdownFile_grows (cached : Bool) (id : Ident) :
    Keeps P (markdownFile cached t id) fun _ => True := by
  refine (pathArgument_keeps hP.ofNodes id).bind fun ⟨name, pos⟩ _ => ?_
  dsimp only
  split
  · exact laterContent_grows hP name pos true
  · refine emitted_grows hP (cachedContent_keeps hP ?_ .markdown name pos) _
    exact fun data _ => (markdownText_keeps t data pos).bind fun _ _ => .pure trivial

theorem markdown_grows (id : Ident) : Keeps P (markdown t id) fun _ => True := by
  refine (markdownSource_keeps hP.ofNodes id).bind fun ⟨src, pos⟩ _ => ?_
  refine (hP.ofNodes.skip _).bind fun _ _ => ?_
  refine (markdownText_keeps t src pos).bind fun _ _ => ?_
  exact (emitText_grows hP _ _).bind fun _ _ => .pure trivial

theorem templateFile_grows (he : ∀ file src, Keeps P (t.embed file src) fun _ => True)
    (cached : Bool) (id : Ident) : Keeps P (templateFile cached t id) fun _ => True := by
  have hembed (pos : Option Position) (src file : Text) :
      Keeps P (embedTemplate t pos src file) fun _ => True := by
    refine Keeps.get.bind fun s _ => ?_
    refine .guard fun _ => ?_
    exact (hP.ofNodes.note _ _).bind fun _ _ => he file src
  have hwrite (fragment : Fragment) : Keeps P (do
      declare fun d => fragment.injects.foldl Declarations.addInject
        (fragment.imports.foldl Declarations.addImport d)
      emit fragment.nodes
      return Outcome.next) fun _ => True := by
    refine (hP.ofNodes.declare _).bind fun _ _ => ?_
    exact (emit_grows hP _).bind fun _ _ => .pure trivial
  refine (pathArgument_keeps hP.ofNodes id).bind fun ⟨name, pos⟩ _ => ?_
  dsimp only
  split
  · exact (cachedContent_keeps hP (hembed pos) _ name pos).bind fun fragment _ => hwrite fragment
  · exact (freshContent_keeps hP (hembed pos) name pos).bind fun fragment _ => hwrite fragment

/-- Every directive of the language only adds nodes. -/
theorem builtin_grows {d : Directive} (hd : d ∈ builtinDirectives)
    (he : ∀ file src, Keeps P (t.embed file src) fun _ => True) (id : Ident) :
    Keeps P (d.run t id) fun _ => True := by
  have hn : OfNodes P := hP.ofNodes
  simp only [builtinDirectives, List.mem_cons, List.not_mem_nil, or_false] at hd
  rcases hd with rfl | rfl | rfl | rfl | rfl | rfl | rfl | rfl | rfl | rfl | rfl | rfl | rfl | rfl |
    rfl | rfl | rfl | rfl | rfl | rfl | rfl | rfl | rfl
  · exact model_keeps hn id
  · exact viewName_keeps hn id
  · exact parameter_keeps hn id
  · exact parameter_keeps hn id
  · exact use_keeps hn id
  · exact inject_keeps hn id
  · exact codeSection_keeps hn id
  · exact codeSection_keeps hn id
  · exact codeSection_keeps hn id
  · exact forLoop_grows hP id
  · exact whileLoop_grows hP id
  · exact condition_grows hP id
  · exact .fail _ _
  · exact defineSection_grows hP id
  · exact renderSection_grows hP id
  · exact renderBody_grows hP id
  · exact htmlFile_grows hP true id
  · exact htmlFile_grows hP false id
  · exact templateFile_grows hP he true id
  · exact templateFile_grows hP he false id
  · exact markdown_grows hP id
  · exact markdownFile_grows hP true id
  · exact markdownFile_grows hP false id

end Directive

namespace Registry

/-- The tools of a loop with so many turns left. -/
def tools (r : Registry) (settings : Settings) (embed : Text → Text → ParseM Fragment) (n : Nat) :
    Tools :=
  { settings, embed, knows := fun name => (r.directive? name).isSome,
    resume := r.loop settings embed n, turns := n }

/-- From `s` the rest of a region is read up to `s'`, by the loop or as raw text. -/
inductive Finishes (s s' : State) : Prop
  | loop {settings : Settings} {k n : Nat} {includers : List Text} {path : Text}
      {c : Option ClosingTag} :
      Returns (goOn (standard.tools settings (standard.embedIn settings k includers path) n)) s c s' →
      Finishes s s'
  | rawText {settings : Settings} {k n m : Nat} {includers : List Text} {path name : Text}
      {c : Option ClosingTag} :
      Returns (standard.rawTextWithin
        (standard.tools settings (standard.embedIn settings k includers path) n) name m) s c s' →
      Finishes s s'

/-- What adding nodes does not break holds to the end of the region. -/
theorem Finishes.grows {P : State → Prop} (hP : Growing P) {s s' : State} (h : Finishes s s')
    (hs : P s) : P s' := by
  cases h with
  | loop hret =>
    refine (goOn_grows hP ?_ _ _ _ hs hret).1
    exact loop_grows hP _ (embedIn_keeps hP _ _ _ _)
      (fun d hd t he id => Directive.builtin_grows hP hd he id) _
  | rawText hret =>
    refine (rawTextWithin_grows hP ?_ _ _ _ _ _ hs hret).1
    exact fun d hd id => Directive.builtin_grows hP hd (embedIn_keeps hP _ _ _ _) id

end Registry
end Atmark
