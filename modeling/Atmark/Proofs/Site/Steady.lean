import Atmark.Proofs.Cache.Steady
import Atmark.Proofs.Code.Steady
import Atmark.Proofs.Site.Order
import Atmark.Proofs.Site.Writing

/-! Compiling a site once more after files were written. If the templates were none of those files and find none
of them by the names in them, all that they read is as it was (`Site.Retains.of_wrote`); so the compilation that
succeeded succeeds again, with the same generated files (`Site.compileEach_again`). -/
namespace Atmark
open Node WorldM Directive

/-! ## What names lead to -/

namespace Settings
variable {settings settings' : Settings} {templates : List Text} {file name found data : Text}

/-- A name leads to the first path that it is looked up at, or to the second one if that one cannot be read. -/
theorem leads_of_files {fs : Files} (hfs : settings.files = some fs) :
    settings.Leads file name found data ↔ Path.isValidName name = true ∧ ∃ first second,
      Path.resolve? file name = some (first, second) ∧ (found = first ∧ fs.read first = .ok data ∨
        found = second ∧ (∀ d, fs.read first ≠ .ok d) ∧ fs.read second = .ok data) := by
  unfold Leads Content.read
  cases hvalid : Path.isValidName name with
  | false => simp
  | true =>
    cases hresolve : Path.resolve? file name with
    | none => simp
    | some paths =>
      obtain ⟨first, second⟩ := paths
      cases hfirst : fs.read first with
      | ok d => simp [hfs, hfirst, eq_comm, and_comm]
      | error e =>
        by_cases hsame : second = first
        · simp [hfs, hfirst, hsame]
        · cases hsecond : fs.read second <;> simp [hfs, hfirst, hsame, hsecond, eq_comm, and_comm]

/-- No name that the templates mention leads to one of the files at these paths. -/
def Avoids (settings : Settings) (templates paths : List Text) : Prop :=
  ∀ file name found data, settings.Mentions templates contentNames file name →
    settings.Leads file name found data → found ∉ paths

/-- What was left for later is found as the names that are mentioned are. -/
theorem Steady.recalls (h : settings.Steady settings' templates)
    (halike : settings' = { settings with files := settings'.files }) :
    settings.Recalls settings' (settings.Later templates) where
  alike := halike
  leads := by
    intro _ name file _ hlater found data hleads
    exact h file name found data (hlater.mono (List.subset_append_right _ _)) hleads

/-- Worlds in which templates can be compiled side by side. -/
structure Paired (settings : Settings) (templates : List Text) (w w' : World) : Prop where
  budget : w.budget = none ∧ w'.budget = none
  caches : ∃ c c', w.cache = some c ∧ w'.cache = some c' ∧ c.Matches c'
  awaits : settings.Awaits templates w

theorem paired_empty (settings : Settings) (templates : List Text) :
    settings.Paired templates { cache := some {} } { cache := some {} } where
  budget := ⟨rfl, rfl⟩
  caches := ⟨{}, {}, rfl, rfl, fun _ => rfl⟩
  awaits := by
    intro c key f hc hf
    cases hc
    cases hf

/-- What is logged does not matter. -/
theorem Paired.log {w w' : World} (h : settings.Paired templates w w') (log log' : List Record) :
    settings.Paired templates { w with log } { w' with log := log' } :=
  ⟨h.budget, h.caches, h.awaits⟩

end Settings

/-- Templates that are bare the same have the same generated file, with the other files too. -/
theorem Template.generate_steady {settings settings' : Settings} {templates : List Text} (t t' : Template)
    {w w' w₁ : World} {source : Text} (h : settings.Recalls settings' (settings.Later templates))
    (hpath : t'.path = t.path) (hdeclared : t'.declared = t.declared) (hnodes : bareAll t.nodes = bareAll t'.nodes)
    (hlater : Postpone (settings.Later templates) t.nodes) (hw : settings.Paired templates w w')
    (hrun : t.generate settings w = .ok source w₁) :
    ∃ w₁', t'.generate settings' w' = .ok source w₁' ∧ settings.Paired templates w₁ w₁' := by
  have hagree : Agree id (t.generate settings') (t'.generate settings') :=
    Template.generate_agree hpath hdeclared hnodes
  have hsame : (t.generate settings').outcome w' = .ok source :=
    Template.generate_follows h hlater source w w' (outcome_ok.mpr ⟨w₁, hrun⟩)
  rw [hagree.outcome_eq w' w'] at hsame
  obtain ⟨w₁', hrun'⟩ := outcome_ok.mp hsame
  -- neither of the two does anything to its world but log
  have honly : OnlyLogs (t.generate settings) := (Template.generate_agree (t := t) rfl rfl rfl).logs.1
  have hlogs := honly w
  have hlogs' := hagree.logs.2 w'
  simp only [after, hrun] at hlogs
  simp only [after, hrun'] at hlogs'
  refine ⟨w₁', hrun', ?_⟩
  rw [hlogs, hlogs']
  exact hw.log _ _

namespace Site
variable {s : Site} {files : Files} {ps order : List Text} {path source : Text} {w w' w₁ : World}
  {gs : List GeneratedFile}

/-! ## One template -/

/-- The files hold, as the site does, all that these templates of the site read. -/
structure Retains (s : Site) (files : Files) (ps : List Text) : Prop where
  room : s.settings.paths.length ≤ ({ s with files } : Site).settings.paths.length
  source : ∀ p ∈ ps, ∀ src, Template.readSource s.settings p = .ok src →
    Template.readSource ({ s with files } : Site).settings p = .ok src
  steady : s.settings.Steady ({ s with files } : Site).settings ps

theorem registry_obeys (s : Site) (C : Contract) : C.Obeys s.config.registry :=
  ⟨(Contract.standard_obeys C).tagHooks, (Contract.standard_obeys C).elementError,
    (Contract.standard_obeys C).elementNodes, (Contract.standard_obeys C).directives⟩

theorem compile_of_source {src : Text} (h : Template.readSource s.settings path = .ok src) :
    s.compile path = Template.parse s.config.registry s.settings path src >>= Template.generate s.settings := by
  simp only [compile, Template.compileFile, Template.parseFile, h]

/-- A template that was compiled is compiled again. -/
theorem compile_again (h : s.Retains files ps) (hpath : path ∈ ps) (hw : s.settings.Paired ps w w')
    (hrun : s.compile path w = .ok source w₁) :
    ∃ w₁', ({ s with files } : Site).compile path w' = .ok source w₁' ∧ s.settings.Paired ps w₁ w₁' := by
  cases hread : Template.readSource s.settings path with
  | error e =>
    have hthrow : s.compile path = throw e := by
      simp only [compile, Template.compileFile, Template.parseFile, hread]
      rfl
    rw [hthrow] at hrun
    cases hrun
  | ok src =>
    rw [compile_of_source hread, Template.parse_bind] at hrun
    rw [compile_of_source (h.source path hpath src hread), Template.parse_bind]
    have hreached : s.settings.Reached ps path := ⟨path, hpath, .refl⟩
    have hhas := Template.has_of_readSource hread
    have hroom : s.settings.paths.length + 2 + 1 ≤ ({ s with files } : Site).settings.paths.length + 2 + 1 :=
      Nat.add_le_add_right (Nat.add_le_add_right h.room 2) 1
    have hends : (Pairing.steady [] path src).Ends
        (s.config.registry.parseSource s.settings (s.settings.paths.length + 2 + 1) [] path src w)
        (s.config.registry.parseSource ({ s with files } : Site).settings
          (({ s with files } : Site).settings.paths.length + 2 + 1) [] path src w') :=
      Registry.parseSource_steady s.registry_blind rfl h.steady _ hroom hw.budget hw.caches hreached hhas
    cases hparse : s.config.registry.parseSource s.settings (s.settings.paths.length + 2 + 1) [] path src w with
    | error e v =>
      rw [hparse] at hrun
      cases hrun
    | ok out v =>
      obtain ⟨ns, d⟩ := out
      rw [hparse] at hrun hends
      obtain ⟨hlater, hawaits⟩ := Registry.parseSource_postpones s.registry_obeys rfl hreached hhas hw.awaits hparse
      have hleft : v.budget = none := by
        have hafter := (Template.parse_unlimited s.registry_metered s.settings path src hw.budget.1).2
        simp only [Template.parse, Template.includeBound_eq, Bind.bind, EStateM.bind, hparse] at hafter
        exact hafter
      rcases hends.of_ok with ⟨ns', v', hparse', hnodes, hbudget, hcaches⟩ | ⟨e, v', hparse', hbad⟩
      · have hv : s.settings.Paired ps v v' := ⟨⟨hleft, hbudget⟩, hcaches, hawaits⟩
        rw [hparse']
        exact Template.generate_steady ⟨path, d, ns⟩ ⟨path, d, ns'⟩ (h.steady.recalls rfl) rfl rfl hnodes hlater
          hv hrun
      · exact hbad.elim

/-! ## All templates -/

/-- The world once it is noted that a template was compiled. -/
def compiled (path source : Text) (w : World) : World :=
  { w with log := ⟨"compiled", [("template", path), ("bytes", Text.ofNat source.length)], .debug⟩ :: w.log }

theorem compileEach_cons {rest : List GeneratedFile} {errors : List Error} {w₂ : World}
    (h : s.compile path w = .ok source w₁)
    (hrest : s.compileEach order (compiled path source w₁) = .ok (rest, errors) w₂) :
    s.compileEach (path :: order) w = .ok (⟨path, View.outputPath path, source⟩ :: rest, errors) w₂ := by
  have hattempt : s.attempt path w = .ok (.ok source) w₁ := by simp only [attempt, h]
  rw [compileEach, bind_ok hattempt]
  exact (bind_ok rfl _).trans (bind_ok hrest _)

/-- Without errors, each template was compiled. -/
theorem compileEach_cons_inv (h : s.compileEach (path :: order) w = .ok (gs, []) w₁) :
    ∃ source w₂ rest, s.compile path w = .ok source w₂ ∧
      s.compileEach order (compiled path source w₂) = .ok (rest, []) w₁ ∧
      gs = ⟨path, View.outputPath path, source⟩ :: rest := by
  rw [compileEach] at h
  cases hcompile : s.compile path w with
  | ok source w₂ =>
    have hattempt : s.attempt path w = .ok (.ok source) w₂ := by simp only [attempt, hcompile]
    have hnote : WorldM.note "compiled" [("template", path), ("bytes", Text.ofNat source.length)] w₂ =
        .ok () (compiled path source w₂) := rfl
    rw [bind_ok hattempt] at h
    dsimp only at h
    rw [bind_ok hnote] at h
    cases hrest : s.compileEach order (compiled path source w₂) with
    | error e w₃ =>
      simp only [Bind.bind, EStateM.bind, hrest] at h
      cases h
    | ok out w₃ =>
      obtain ⟨rest, errors⟩ := out
      rw [bind_ok hrest] at h
      cases h
      exact ⟨source, w₂, rest, rfl, hrest, rfl⟩
  | error e w₂ =>
    cases hstop : e.isStop with
    | true =>
      have hattempt : s.attempt path w = .error e w₂ := by simp only [attempt, hcompile, hstop, if_true]
      simp only [Bind.bind, EStateM.bind, hattempt] at h
      cases h
    | false =>
      have hattempt : s.attempt path w = .ok (.error e) w₂ := by
        simp only [attempt, hcompile, hstop, Bool.false_eq_true, if_false]
      rw [bind_ok hattempt] at h
      cases hrest : s.compileEach order w₂ with
      | error e' w₃ =>
        simp only [Bind.bind, EStateM.bind, hrest] at h
        cases h
      | ok out w₃ =>
        dsimp only at h
        rw [bind_ok hrest] at h
        cases h

/-- There is one generated file for each template, beside it. -/
theorem compileEach_files (h : s.compileEach order w = .ok (gs, []) w₁) :
    gs.map (·.template) = order ∧ ∀ g ∈ gs, g.path = View.outputPath g.template := by
  induction order generalizing w gs with
  | nil =>
    cases h
    exact ⟨rfl, by simp⟩
  | cons path order ih =>
    obtain ⟨source, w₂, rest, -, hrest, rfl⟩ := compileEach_cons_inv h
    obtain ⟨htemplates, hpaths⟩ := ih hrest
    exact ⟨congrArg (path :: ·) htemplates, List.forall_mem_cons.mpr ⟨rfl, hpaths⟩⟩

/-- Templates that were all compiled are compiled again. -/
theorem compileEach_again (h : s.Retains files ps) (horder : order ⊆ ps) (hw : s.settings.Paired ps w w')
    (hrun : s.compileEach order w = .ok (gs, []) w₁) :
    ∃ w₁', ({ s with files } : Site).compileEach order w' = .ok (gs, []) w₁' := by
  induction order generalizing w w' gs with
  | nil =>
    cases hrun
    exact ⟨w', rfl⟩
  | cons path order ih =>
    obtain ⟨source, w₂, rest, hcompile, hrest, rfl⟩ := compileEach_cons_inv hrun
    obtain ⟨hpath, horder⟩ := List.cons_subset.mp horder
    obtain ⟨w₂', hcompile', hw₂⟩ := compile_again h hpath hw hcompile
    obtain ⟨w₁', hrest'⟩ := ih horder (hw₂.log _ _) hrest
    exact ⟨w₁', compileEach_cons hcompile' hrest'⟩

theorem compileAll_ok : s.compileAll w = .ok gs w₁ ↔
    ∃ ps, s.templates = .ok ps ∧ s.compileEach ps w = .ok (gs, []) w₁ := by
  unfold compileAll
  cases htemplates : s.templates with
  | error e =>
    constructor
    · intro h
      cases h
    · intro h
      obtain ⟨ps, hps, -⟩ := h
      cases hps
  | ok ps =>
    simp only [Except.ok.injEq, exists_eq_left']
    cases hrun : s.compileEach ps w with
    | error e w₂ =>
      simp only [Bind.bind, EStateM.bind, hrun]
      constructor <;> intro h <;> cases h
    | ok out w₂ =>
      obtain ⟨files, errors⟩ := out
      rw [bind_ok hrun]
      cases errors with
      | nil =>
        constructor <;> intro h <;> cases h <;> rfl
      | cons e errors =>
        constructor <;> intro h <;> cases h

/-- Generated files that a site has once, it has again. -/
theorem compileAll_again (h : s.Retains files ps) (htemplates : s.templates = .ok ps)
    (hsame : ({ s with files } : Site).templates = .ok ps)
    (hrun : s.compileAll { cache := some {} } = .ok gs w₁) :
    ∃ w₁', ({ s with files } : Site).compileAll { cache := some {} } = .ok gs w₁' := by
  obtain ⟨ps', hps', heach⟩ := compileAll_ok.mp hrun
  rw [htemplates] at hps'
  cases hps'
  obtain ⟨w₁', heach'⟩ := compileEach_again h (List.Subset.refl ps) (s.settings.paired_empty ps) heach
  exact ⟨w₁', compileAll_ok.mpr ⟨ps, hsame, heach'⟩⟩

/-! ## Files that were written -/

section Wrote
variable {new : List (Text × Text)} (hwrote : s.files.Wrote files new)
include hwrote

/-- A name leads where it led, unless it leads to one of the new files. -/
theorem leads_wrote {file name found data : Text} (hleads : s.settings.Leads file name found data)
    (hnew : ∀ found data, ({ s with files } : Site).settings.Leads file name found data →
      found ∉ new.map (·.1)) : ({ s with files } : Site).settings.Leads file name found data := by
  have hleads' {found data : Text} : ({ s with files } : Site).settings.Leads file name found data ↔ _ :=
    Settings.leads_of_files rfl
  obtain ⟨hvalid, first, second, hresolve, hfound⟩ := (Settings.leads_of_files rfl).mp hleads
  -- a new file at the first path would be found there
  have hfirst : first ∉ new.map (·.1) := by
    intro hmem
    obtain ⟨f, hf, rfl⟩ := List.mem_map.mp hmem
    have hread := hwrote.read_written hf
    exact hnew f.1 f.2 (hleads'.mpr ⟨hvalid, _, _, hresolve, .inl ⟨rfl, hread⟩⟩) hmem
  rcases hfound with ⟨rfl, hread⟩ | ⟨rfl, hrefused, hread⟩
  · exact hleads'.mpr ⟨hvalid, _, _, hresolve, .inl ⟨rfl, (hwrote.read_ok hfirst).mpr hread⟩⟩
  have hrefused' : ∀ d, files.read first ≠ .ok d := fun d hd => hrefused d ((hwrote.read_ok hfirst).mp hd)
  have hsecond : found ∉ new.map (·.1) := by
    intro hmem
    obtain ⟨f, hf, rfl⟩ := List.mem_map.mp hmem
    have hread' := hwrote.read_written hf
    exact hnew f.1 f.2 (hleads'.mpr ⟨hvalid, _, _, hresolve, .inr ⟨rfl, hrefused', hread'⟩⟩) hmem
  exact hleads'.mpr ⟨hvalid, _, _, hresolve, .inr ⟨rfl, hrefused', (hwrote.read_ok hsecond).mpr hread⟩⟩

variable (hnew : ∀ p ∈ ps, p ∉ new.map (·.1))
  (havoids : ({ s with files } : Site).settings.Avoids ps (new.map (·.1)))
include hnew havoids

/-- The templates reach what they reached, and none of the new files. -/
theorem reached_wrote {file : Text} (h : s.settings.Reached ps file) :
    ({ s with files } : Site).settings.Reached ps file ∧ file ∉ new.map (·.1) := by
  obtain ⟨p, hp, hreach⟩ := h
  induction hreach with
  | refl => exact ⟨⟨p, hp, .refl⟩, hnew p hp⟩
  | tail _ hincl ih =>
    obtain ⟨hreached, hold⟩ := ih
    obtain ⟨src, name, data, ⟨fs, hfs, hread⟩, hasks, hleads⟩ := hincl
    cases hfs
    have hhas : ({ s with files } : Site).settings.Has _ src := ⟨files, rfl, (hwrote.read_ok hold).mpr hread⟩
    have hmentions : ({ s with files } : Site).settings.Mentions ps contentNames _ name :=
      ⟨hreached, src, hhas, hasks.mono (List.subset_append_left _ _)⟩
    have hleads' := leads_wrote hwrote hleads fun found data h => havoids _ _ _ _ hmentions h
    exact ⟨hreached.included ⟨src, name, data, hhas, hasks, hleads'⟩, havoids _ _ _ _ hmentions hleads'⟩

/-- All that the templates read is as it was. -/
theorem Retains.of_wrote (htree : s.files.IsTree) : s.Retains files ps where
  room := by
    have hsub : s.files.paths ⊆ files.paths := fun p hp => (hwrote.mem_paths p).mpr (.inl hp)
    exact (htree.distinct.subperm hsub).length_le
  source := by
    intro p hp src hsource
    obtain ⟨fs, hfs, hread⟩ := Template.has_of_readSource hsource
    cases hfs
    have hread' := (hwrote.read_ok (hnew p hp)).mpr hread
    simp only [Template.readSource, settings] at hsource ⊢
    split at hsource
    · cases hsource
    · rename_i hpath
      rw [if_neg hpath, hread']
  steady := by
    intro file name found data hmentions hleads
    obtain ⟨hreached, src, ⟨fs, hfs, hread⟩, hnames⟩ := hmentions
    cases hfs
    obtain ⟨hreached', hold⟩ := reached_wrote hwrote hnew havoids hreached
    have hhas : ({ s with files } : Site).settings.Has file src :=
      ⟨files, rfl, (hwrote.read_ok hold).mpr hread⟩
    exact leads_wrote hwrote hleads fun found data h => havoids _ _ _ _ ⟨hreached', src, hhas, hnames⟩ h

end Wrote
end Site
end Atmark
