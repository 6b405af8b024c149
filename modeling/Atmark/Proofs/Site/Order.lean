import Atmark.Proofs.Cache.Session
import Atmark.Proofs.Code.Generated
import Atmark.Proofs.Parse.Budget
import Atmark.Site.Basic

/-! Compiling all templates of a site. The templates share a cache, and errors are put in order by the file
they were found in, so the order in which the templates are compiled could show in two ways. If a cache changes
nothing and errors that are found in one file read the same, it shows in none (`compileIn_eq_compileAll`). -/
namespace Atmark
open Node WorldM

/-! ## The order of texts -/

namespace Text

theorem lt_iff (s t : Text) : lt s t = true ↔ (show List UInt8 from s) < t := by
  induction t generalizing s with
  | nil => simp [lt]
  | cons b t ih =>
    cases s with
    | nil => simp [lt]
    | cons a s =>
      rw [lt, Bool.or_eq_true, Bool.and_eq_true, decide_eq_true_eq, decide_eq_true_eq, ih,
        List.cons_lt_cons_iff]

theorem le_iff (s t : Text) : le s t = true ↔ (show List UInt8 from s) ≤ t := by
  rw [le, Bool.not_eq_true', ← Bool.not_eq_true, lt_iff]
  exact Iff.rfl

theorem le_trans (s t u : Text) (h : le s t = true) (h' : le t u = true) : le s u = true := by
  rw [le_iff] at h h' ⊢
  exact List.le_trans h h'

theorem le_total (s t : Text) : (le s t || le t s) = true := by
  rw [Bool.or_eq_true, le_iff, le_iff]
  exact List.le_total s t

theorem sort_of_sorted {ts : List Text} (h : ts.Pairwise fun s t => le s t = true) : sort ts = ts :=
  List.mergeSort_of_pairwise h

theorem le_antisymm {s t : Text} (h : le s t = true) (h' : le t s = true) : s = t := by
  rw [le_iff] at h h'
  exact List.le_antisymm h h'

end Text

/-- Things in order of a text, of which those with the same text look the same, look the same in whatever
order they come. -/
theorem map_mergeSort_perm {α β : Type} (key : α → Text) (f : α → β) {xs ys : List α} (h : xs.Perm ys)
    (hf : ∀ x ∈ xs, ∀ y ∈ xs, key x = key y → f x = f y) :
    (xs.mergeSort fun a b => Text.le (key a) (key b)).map f =
      (ys.mergeSort fun a b => Text.le (key a) (key b)).map f := by
  let le (a b : α) : Bool := Text.le (key a) (key b)
  have hsorted (zs : List α) : (zs.mergeSort le).Pairwise fun a b => le a b = true :=
    List.pairwise_mergeSort (fun a b c => Text.le_trans (key a) (key b) (key c))
      (fun a b => Text.le_total (key a) (key b)) zs
  -- the keys go along, so that what is in order stays in order
  let pair (x : α) : Text × β := (key x, f x)
  have hpairs (zs : List α) :
      ((zs.mergeSort le).map pair).Pairwise fun a b => Text.le a.1 b.1 = true :=
    List.pairwise_map.mpr (hsorted zs)
  have hperm : ((xs.mergeSort le).map pair).Perm ((ys.mergeSort le).map pair) :=
    (((List.mergeSort_perm xs le).trans h).trans (List.mergeSort_perm ys le).symm).map pair
  have heq : (xs.mergeSort le).map pair = (ys.mergeSort le).map pair := by
    refine hperm.eq_of_pairwise ?_ (hpairs xs) (hpairs ys)
    intro a b ha hb hab hba
    obtain ⟨x, hx, rfl⟩ := List.mem_map.mp ha
    obtain ⟨y, hy, rfl⟩ := List.mem_map.mp hb
    have hx' : x ∈ xs := List.mem_mergeSort.mp hx
    have hy' : y ∈ xs := h.mem_iff.mpr (List.mem_mergeSort.mp hy)
    have hkey : key x = key y := Text.le_antisymm hab hba
    exact Prod.ext hkey (hf x hx' y hy' hkey)
  simpa [pair, List.map_map, Function.comp_def] using congrArg (List.map Prod.snd) heq

/-- The texts of joined errors stand on lines of their own. -/
theorem Error.messages_eq : (es : List Error) →
    messages es = Text.intercalate (utf8 "\n") (es.map message)
  | [] => rfl
  | [e] => by simp [messages, Text.intercalate]
  | e :: f :: es => by
    rw [messages, messages_eq (f :: es)]
    rfl

/-- What follows a step that ends well. -/
theorem WorldM.bind_ok {α β : Type} {m : WorldM α} {a : α} {w w' : World} (h : m w = .ok a w')
    (f : α → WorldM β) : (m >>= f) w = f a w' := by
  simp only [Bind.bind, EStateM.bind, h]

/-! ## Errors of generating -/

/-- The step never ends with the error that the compilation was given up. -/
def WorldM.Settled {α : Type} (m : WorldM α) : Prop := ∀ w, Run.isStopped (m w) = false

namespace WorldM.Settled
variable {α β : Type}

theorem bind {m : WorldM α} {f : α → WorldM β} (hm : Settled m) (hf : ∀ a, Settled (f a)) :
    Settled (m >>= f) := by
  intro w
  have hw := hm w
  simp only [Bind.bind, EStateM.bind]
  cases h : m w with
  | ok a w' => exact hf a w'
  | error e w' =>
    rw [h] at hw
    exact hw

theorem pure (a : α) : Settled (Pure.pure a) := fun _ => rfl

theorem throw {e : Error} (h : e.isStop = false) : Settled (MonadExcept.throw e : WorldM α) := fun _ => h

theorem note (message : String) (fields : List (String × Text)) : Settled (WorldM.note message fields) :=
  fun _ => rfl

/-- The content that was found is text, or becomes text. -/
theorem foundText (settings : Settings) (pos : Option Position) (includer : Text) (markdown : Bool)
    (data file : Text) : Settled (do
      WorldM.note "external content" (("component", utf8 "lower") ::
        [("file", file), ("markdown", utf8 (if markdown then "true" else "false"))])
      if !markdown then return data
      match Content.renderMarkdown settings data pos with
      | .ok html => return html
      | .error e => MonadExcept.throw (e.withPath includer)) := by
  refine (note _ _).bind fun _ => ?_
  split
  · exact pure _
  · unfold Content.renderMarkdown
    cases settings.markdown data with
    | ok html => exact pure _
    | error reason => exact throw rfl

theorem externalText (settings : Settings) (pos : Option Position) (path includer : Text)
    (markdown : Bool) : Settled (Code.externalText settings pos path includer markdown) := by
  unfold Code.externalText
  dsimp only
  cases hread : (Content.read settings.files includer path pos).1 with
  | error e =>
    have hthrow : Settled (MonadExcept.throw (e.withPath includer) : WorldM Text) :=
      throw ((e.isStop_withPath includer).trans (Content.isStop_read hread))
    split
    · exact (note _ _).bind fun _ => hthrow
    · exact hthrow
  | ok found =>
    have hfound := foundText settings pos includer markdown found.1 found.2
    split
    · exact (note _ _).bind fun _ => hfound
    · exact hfound

mutual

theorem resolveNode (settings : Settings) : (n : Node) → Settled (Code.resolveNode settings n)
  | .external p path includer markdown => by
    rw [Code.resolveNode]
    exact (externalText settings p path includer markdown).bind fun _ => pure _
  | .group _ ns | .write _ ns | .attrValue _ _ ns | .closure _ _ ns | .define _ _ ns => by
    rw [Code.resolveNode]
    exact (resolve settings ns).bind fun _ => pure _
  | .text .. | .ident _ | .literal _ | .punct _ | .tagStart .. | .tagVoid .. | .tagEnd ..
  | .closeStart .. | .closeSelf .. | .closeVoid .. | .attrName .. | .attrEquals .. => pure _

theorem resolve (settings : Settings) : (ns : List Node) → Settled (Code.resolve settings ns)
  | [] => pure _
  | n :: ns => by
    rw [Code.resolve]
    exact (resolveNode settings n).bind fun _ => (resolve settings ns).bind fun _ => pure _

end

/-- Generating is never given up. -/
theorem generate (settings : Settings) (t : Template) : Settled (t.generate settings) := by
  have hfile : Settled (ViewFile.ofTemplate settings t) :=
    ((resolve settings t.nodes).bind fun _ => pure _).bind fun _ => pure _
  refine hfile.bind fun file => ?_
  dsimp only
  split
  · exact (note _ _).bind fun _ => pure _
  · exact (note _ _).bind fun _ => throw rfl

end WorldM.Settled

/-! ## The templates of a site -/

namespace Site

/-- Compiles templates one after another in an order of their own. The files are given in order of their
templates, and the errors in order of the files they are found in. -/
def compileIn (s : Site) (order : List Text) : WorldM (List GeneratedFile) := do
  let (files, errors) ← s.compileEach order
  if errors.isEmpty then return files.mergeSort fun a b => Text.le a.template b.template
  else throw (.joined (errors.mergeSort fun a b => Text.le a.path b.path))

/-- What compiling the template at a path returns without a cache. -/
def result (s : Site) (path : Text) : Except Error Text := (s.compile path).outcome {}

/-- The generated file of the template at a path, if it can be compiled. -/
def file? (s : Site) (path : Text) : Option GeneratedFile :=
  (s.result path).toOption.map fun source => ⟨path, View.outputPath path, source⟩

/-- The error of the template at a path, if it cannot be compiled. -/
def error? (s : Site) (path : Text) : Option Error :=
  match s.result path with
  | .ok _ => none
  | .error e => some e

theorem error?_eq_some {s : Site} {path : Text} {e : Error} :
    s.error? path = some e ↔ s.result path = .error e := by
  unfold error?
  cases s.result path with
  | ok source => simp
  | error e' => simp

/-- No limit is set, and the cache is right. -/
def Ready (s : Site) (named : Named) (w : World) : Prop :=
  w.budget = none ∧ ∃ c, w.cache = some c ∧ s.config.registry.Valid s.settings named c

variable {s : Site} {named : Named}

theorem registry_blind (s : Site) : s.config.registry.Blind :=
  ⟨Registry.standard_blind.directives, Registry.standard_blind.tagHooks,
    Registry.standard_blind.elementHooks⟩

theorem registry_metered (s : Site) : s.config.registry.Metered :=
  ⟨⟨Registry.standard_metered.keeps.directives, Registry.standard_metered.keeps.tagHooks,
    Registry.standard_metered.keeps.elementHooks⟩, rfl⟩

theorem isStop_readSource {settings : Settings} {path : Text} {e : Error}
    (h : Template.readSource settings path = .error e) : e.isStop = false := by
  unfold Template.readSource at h
  repeat' split at h
  all_goals
    cases h
    try rfl

theorem generate_shared (settings : Settings) : Template.Shared (Template.generate settings) :=
  fun _ _ hpath hdeclared hnodes => Template.generate_agree hpath hdeclared hnodes

/-- A compilation without a limit is not given up, and leaves no limit. -/
theorem compile_unlimited (path : Text) {w : World} (hw : w.budget = none) :
    Run.isStopped (s.compile path w) = false ∧ ((s.compile path).after w).budget = none := by
  cases hread : Template.readSource s.settings path with
  | error e =>
    have hrun : s.compile path = throw e := by
      simp only [compile, Template.compileFile, Template.parseFile, hread]
      rfl
    rw [hrun]
    exact ⟨isStop_readSource hread, hw⟩
  | ok src =>
    have hrun : s.compile path = Template.parse s.config.registry s.settings path src >>=
        Template.generate s.settings := by
      simp only [compile, Template.compileFile, Template.parseFile, hread]
    obtain ⟨hstop, hbudget⟩ := Template.parse_unlimited s.registry_metered s.settings path src hw
    rw [hrun]
    simp only [after, Bind.bind, EStateM.bind]
    cases hparse : Template.parse s.config.registry s.settings path src w with
    | error e w₁ =>
      rw [hparse] at hstop hbudget
      exact ⟨hstop, hbudget⟩
    | ok t w₁ =>
      rw [hparse] at hbudget
      have hlogs := (generate_shared s.settings (t := t) rfl rfl rfl).logs.1 w₁
      refine ⟨WorldM.Settled.generate s.settings t w₁, ?_⟩
      change (WorldM.after (t.generate s.settings) w₁).budget = none
      rw [hlogs]
      exact hbudget

/-- A compilation returns what it returns without a cache, and the next one can follow. -/
theorem compile_ready (hcons : s.settings.Consistent named)
    (hall : ∀ file src, s.settings.Has file src → named.Covers file src) (path : Text) {w : World}
    (hw : s.Ready named w) : (s.compile path).outcome w = s.result path ∧
      s.Ready named ((s.compile path).after w) := by
  obtain ⟨hbudget, hcache⟩ := hw
  have hleft := (compile_unlimited (s := s) path hbudget).2
  cases hread : Template.readSource s.settings path with
  | error e =>
    have hrun : s.compile path = throw e := by
      simp only [compile, Template.compileFile, Template.parseFile, hread]
      rfl
    rw [result, hrun]
    exact ⟨rfl, hbudget, hcache⟩
  | ok src =>
    have hhas := Template.has_of_readSource hread
    have hrun : s.compile path = Template.parse s.config.registry s.settings path src >>=
        Template.generate s.settings := by
      simp only [compile, Template.compileFile, Template.parseFile, hread]
    have hboth := Template.parse_bind_cached (generate_shared s.settings) s.registry_blind hcons hall
      (hall path src hhas) (fun _ h => hhas.unique h) (v := {}) ⟨hbudget, rfl⟩ hcache rfl
    rw [← hrun] at hboth
    exact ⟨hboth.1, hleft, hboth.2⟩

theorem Ready.note {w : World} (hw : s.Ready named w) (log : List Record) :
    s.Ready named { w with log } := hw

/-- Templates that are compiled one after another are compiled as each of them is without a cache. -/
theorem compileEach_ready (hcons : s.settings.Consistent named)
    (hall : ∀ file src, s.settings.Has file src → named.Covers file src) (order : List Text) {w : World}
    (hw : s.Ready named w) :
    ∃ w', s.compileEach order w = .ok (order.filterMap s.file?, order.filterMap s.error?) w' := by
  induction order generalizing w with
  | nil => exact ⟨w, rfl⟩
  | cons path order ih =>
    obtain ⟨hout, hready⟩ := compile_ready hcons hall path hw
    have hstop := (compile_unlimited (s := s) path hw.1).1
    unfold WorldM.outcome at hout
    unfold WorldM.after at hready
    cases hcompile : s.compile path w with
    | ok source w₁ =>
      rw [hcompile] at hout hready
      change Except.ok source = s.result path at hout
      have hfile : s.file? path = some ⟨path, View.outputPath path, source⟩ := by
        simp only [file?, ← hout, Except.toOption, Option.map_some]
      have herror : s.error? path = none := by simp only [error?, ← hout]
      have hattempt : s.attempt path w = .ok (.ok source) w₁ := by simp only [attempt, hcompile]
      obtain ⟨w₂, hrest⟩ := ih (hready.note _)
      refine ⟨w₂, ?_⟩
      simp only [List.filterMap_cons, hfile, herror]
      rw [compileEach, bind_ok hattempt]
      exact (bind_ok rfl _).trans (bind_ok hrest _)
    | error e w₁ =>
      rw [hcompile] at hout hready hstop
      change Except.error e = s.result path at hout
      have hfile : s.file? path = none := by
        simp only [file?, ← hout, Except.toOption, Option.map_none]
      have herror : s.error? path = some e := by simp only [error?, ← hout]
      have hgoes : e.isStop = false := hstop
      have hattempt : s.attempt path w = .ok (.error e) w₁ := by
        simp only [attempt, hcompile, hgoes, Bool.false_eq_true, if_false]
      obtain ⟨w₂, hrest⟩ := ih hready
      refine ⟨w₂, ?_⟩
      simp only [List.filterMap_cons, hfile, herror]
      rw [compileEach, bind_ok hattempt]
      exact bind_ok hrest _

theorem templates_sorted {paths : List Text} (h : s.templates = .ok paths) :
    paths.Pairwise fun a b => Text.le a b = true := by
  unfold templates at h
  cases hwalk : s.files.walk s.files.depthBound Path.here with
  | error e => simp [hwalk, Bind.bind, Except.bind] at h
  | ok files =>
    simp only [hwalk, Bind.bind, Except.bind, Pure.pure, Except.pure, Except.ok.injEq] at h
    rw [← h]
    exact List.pairwise_mergeSort Text.le_trans Text.le_total _

theorem file?_template {path : Text} {f : GeneratedFile} (h : s.file? path = some f) :
    f.template = path := by
  obtain ⟨source, -, rfl⟩ := Option.map_eq_some_iff.mp h
  rfl

/-- The files of templates in order are in order, and sorting those of the templates in another order gives
them. -/
theorem mergeSort_files {order paths : List Text} (horder : order.Perm paths)
    (hsorted : paths.Pairwise fun a b => Text.le a b = true) :
    ((order.filterMap s.file?).mergeSort fun a b => Text.le a.template b.template) =
      paths.filterMap s.file? := by
  have hsame : ∀ f ∈ order.filterMap s.file?, ∀ g ∈ order.filterMap s.file?,
      f.template = g.template → id f = id g := by
    intro f hf g hg htemplate
    obtain ⟨p, -, hf⟩ := List.mem_filterMap.mp hf
    obtain ⟨q, -, hg⟩ := List.mem_filterMap.mp hg
    obtain rfl := file?_template hf
    obtain rfl := file?_template hg
    rw [htemplate] at hf
    exact Option.some.inj (hf.symm.trans hg)
  have hperm := map_mergeSort_perm GeneratedFile.template id (horder.filterMap s.file?) hsame
  simp only [List.map_id] at hperm
  rw [hperm]
  refine List.mergeSort_of_pairwise (List.pairwise_filterMap.mpr (hsorted.imp ?_))
  intro p q hpq f hf g hg
  rw [file?_template hf, file?_template hg]
  exact hpq

/-- Errors of which those with the same path read the same are joined to the same text. -/
theorem messages_errors {order paths : List Text} (horder : order.Perm paths)
    (hsame : ∀ p ∈ paths, ∀ q ∈ paths, ∀ e e', s.result p = .error e → s.result q = .error e' →
      e.path = e'.path → e.message = e'.message) :
    Error.messages ((order.filterMap s.error?).mergeSort fun a b => Text.le a.path b.path) =
      Error.messages ((paths.filterMap s.error?).mergeSort fun a b => Text.le a.path b.path) := by
  rw [Error.messages_eq, Error.messages_eq]
  refine congrArg _ (map_mergeSort_perm Error.path Error.message (horder.filterMap s.error?) ?_)
  intro e he e' he' hpath
  obtain ⟨p, hp, he⟩ := List.mem_filterMap.mp he
  obtain ⟨q, hq, he'⟩ := List.mem_filterMap.mp he'
  exact hsame p (horder.mem_iff.mp hp) q (horder.mem_iff.mp hq) e e' (error?_eq_some.mp he)
    (error?_eq_some.mp he') hpath

/-- Three templates: a page, and two that hold the same broken one. -/
def sample : Site where
  files := ⟨[(utf8 "a.rhtml", utf8 "@htmlfile \"p\""), (utf8 "b.rhtml", utf8 "@rusthtmlfile \"/q\""),
    (utf8 "c.rhtml", utf8 "@rusthtmlfile \"q\""), (utf8 "p", utf8 "X"), (utf8 "q", utf8 "@1")], false⟩

/-- The templates of the sample, in order. -/
def samplePaths : List Text := [utf8 "a.rhtml", utf8 "b.rhtml", utf8 "c.rhtml"]

end Site
end Atmark
