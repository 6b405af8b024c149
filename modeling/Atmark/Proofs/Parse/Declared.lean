import Atmark.Proofs.Directive.Merge
import Atmark.Proofs.Parse.Include

/-! What a template declares. The debug records of directives tell which directives a parse ran and in which
order, those of included files where they are included. Each of them stands in the root file or in a file
below it and declares what the tokens after it say, and the declarations of the template are what these
declarations come to, one after another (`declared_sums`). -/
namespace Atmark
open Node ParseM

/-- A directive that was run: the file it stands in with the files above it, the tokens after it, and what it
declared. -/
structure Occurrence where
  includers : List Text
  path : Text
  source : Text
  id : Ident
  rest : List Token
  declares : Option Declaration

namespace Occurrence

/-- The debug record of the directive. -/
def record (o : Occurrence) : Record :=
  { message := "directive"
    fields := [("component", utf8 "parser"), ("path", o.path), ("name", o.id.name),
      ("pos", (o.id.pos.getD .zero).label)] }

/-- The directive stands in the file below some others and declares what it says; what it declares about the
view it declares in the root file. -/
structure In (o : Occurrence) (includers : List Text) (file data : Text) : Prop where
  includers : o.includers = includers
  path : o.path = file
  source : o.source = data
  part : Token.Part (Token.ofSource data) (.ident o.id :: o.rest)
  declares : Directive.Declares o.id o.rest o.declares
  root : ∀ x ∈ o.declares, x.isShared = false → o.includers = []

end Occurrence

/-- The declarations of directives, in order. -/
def declarations (os : List Occurrence) : List Declaration := os.filterMap (·.declares)

/-- The records of directives in a log, the latest first. -/
def directiveRecords (log : List Record) : List Record := log.filter (·.message = "directive")

/-- The directives that are run over a file below some others: those of the file, and where it includes a
template, those that are run over that one. -/
inductive Ran (settings : Settings) : List Text → Text → Text → List Occurrence → Prop
  | nil {includers : List Text} {file data : Text} : Ran settings includers file data []
  | directive {includers : List Text} {file data : Text} {os : List Occurrence} {o : Occurrence} :
      Ran settings includers file data os → o.In includers file data →
      Ran settings includers file data (os ++ [o])
  | template {includers : List Text} {file data name file' data' : Text} {os us : List Occurrence} :
      Ran settings includers file data os →
      Directive.Names Directive.templateNames (Token.ofSource data) name →
      settings.Leads file name file' data' → file' ∉ includers ++ [file] →
      Ran settings (includers ++ [file]) file' data' us → Ran settings includers file data (os ++ us)

namespace Ran
variable {settings : Settings} {path src : Text} {includers : List Text} {file data : Text}
  {os : List Occurrence}

/-- Each directive stands in the root file or in a file below it. -/
theorem included (h : Ran settings includers file data os)
    (hincl : Included settings path src includers file data) :
    ∀ o ∈ os, Included settings path src o.includers o.path o.source ∧
      o.In o.includers o.path o.source := by
  induction h with
  | nil => simp
  | directive _ ho ih =>
    intro u hu
    rcases List.mem_append.mp hu with hu | hu
    · exact ih hincl u hu
    · rw [List.mem_singleton.mp hu, ho.includers, ho.path, ho.source]
      exact ⟨hincl, ho⟩
  | template _ hnames hleads hnew _ ih ih' =>
    intro u hu
    rcases List.mem_append.mp hu with hu | hu
    · exact ih hincl u hu
    · exact ih' (hincl.next hnames hleads hnew) u hu

/-- An included file only declares what is shared. -/
theorem shared (h : Ran settings includers file data os) (hne : includers ≠ []) :
    ∀ x ∈ declarations os, x.isShared = true := by
  induction h with
  | nil => simp [declarations]
  | directive _ ho ih =>
    intro x hx
    rw [declarations, List.filterMap_append] at hx
    rcases List.mem_append.mp hx with hx | hx
    · exact ih hne x hx
    · cases hs : x.isShared with
      | true => rfl
      | false => exact (hne (ho.includers ▸ ho.root x (by simpa using hx) hs)).elim
  | template _ _ _ _ _ ih ih' =>
    intro x hx
    rw [declarations, List.filterMap_append] at hx
    rcases List.mem_append.mp hx with hx | hx
    · exact ih hne x hx
    · exact ih' (by simp) x hx

end Ran

/-! ## One file -/

/-- What was declared over a file since the log `before`: the directives that were run and recorded, one
after another. -/
def Settings.HasDeclared (settings : Settings) (includers : List Text) (file data : Text)
    (before : List Record) (d : Declarations) (after : List Record) : Prop :=
  ∃ os, Ran settings includers file data os ∧
    directiveRecords after = (os.map Occurrence.record).reverse ++ directiveRecords before ∧
    d = Declaration.total (declarations os) ∧ Declaration.Fresh {} (declarations os)

namespace Settings.HasDeclared
variable {settings : Settings} {includers : List Text} {file data : Text} {before log log' : List Record}
  {d d' : Declarations}

theorem nil : settings.HasDeclared includers file data before {} before := ⟨[], .nil, rfl, rfl, trivial⟩

/-- Other records do not count. -/
theorem note (h : settings.HasDeclared includers file data before d log) {r : Record}
    (hr : r.message ≠ "directive") : settings.HasDeclared includers file data before d (r :: log) := by
  obtain ⟨os, hran, hrecords, hd⟩ := h
  refine ⟨os, hran, ?_, hd⟩
  rw [← hrecords]
  simp [directiveRecords, hr]

/-- One more directive. -/
theorem directive (h : settings.HasDeclared includers file data before d log) {o : Occurrence}
    (ho : o.In includers file data) (hnew : ∀ x ∈ o.declares, x.IsNew d) :
    settings.HasDeclared includers file data before (o.declares.elim d (·.addTo d)) (o.record :: log) := by
  obtain ⟨os, hran, hrecords, rfl, hfresh⟩ := h
  have hrecord : directiveRecords (o.record :: log) = o.record :: directiveRecords log := rfl
  refine ⟨os ++ [o], hran.directive ho, by simp [hrecord, hrecords], ?_⟩
  cases hd : o.declares with
  | none =>
    have hsame : declarations (os ++ [o]) = declarations os := by simp [declarations, hd]
    rw [hsame]
    exact ⟨rfl, hfresh⟩
  | some x =>
    have hmore : declarations (os ++ [o]) = declarations os ++ [x] := by simp [declarations, hd]
    rw [hmore]
    refine ⟨by simp [Declaration.total], Declaration.fresh_append.mpr ⟨hfresh, ?_⟩⟩
    exact ⟨hnew x hd, trivial⟩

/-- The directives of an included file, whose declarations are merged when it has been parsed. -/
theorem template (h : settings.HasDeclared includers file data before d log) {name file' data' : Text}
    (hnames : Directive.Names Directive.templateNames (Token.ofSource data) name)
    (hleads : settings.Leads file name file' data') (hnew : file' ∉ includers ++ [file])
    (h' : settings.HasDeclared (includers ++ [file]) file' data' log d' log') (ns : List Node) :
    settings.HasDeclared includers file data before (d.merge ⟨ns, d'.imports, d'.injects⟩) log' := by
  obtain ⟨os, hran, hrecords, rfl, hfresh⟩ := h
  obtain ⟨us, hran', hrecords', rfl, -⟩ := h'
  have hshared := hran'.shared (by simp)
  have hboth : declarations (os ++ us) = declarations os ++ declarations us := List.filterMap_append
  refine ⟨os ++ us, hran.template hnames hleads hnew hran', by simp [hrecords, hrecords'], ?_⟩
  rw [hboth, ← Declaration.foldl_addTo_shared hshared]
  exact ⟨by simp [Declaration.total],
    Declaration.fresh_append.mpr ⟨hfresh, Declaration.fresh_shared hshared _⟩⟩

end Settings.HasDeclared

/-- Every directive is recorded and declares what it says. -/
def Contract.declaring (settings : Settings) (includers : List Text) (file data : Text)
    (before : List Record) : Contract where
  settings := settings
  path := file
  includers := includers
  tokens := Token.ofSource data
  error _ := True
  later _ _ _ _ := True
  inv s := s.world.cache = none ∧ settings.HasDeclared includers file data before s.declared s.world.log
  pending f s := s.world.cache = none ∧
    settings.HasDeclared includers file data before (s.declared.merge f) s.world.log
  stopped _ _ := trivial
  unread _ _ _ _ := trivial
  fault _ _ _ := trivial
  postponed _ _ _ := trivial
  framed s s' hs hdeclared hlog hcache := by simpa only [hdeclared, hlog, hcache] using hs
  pendingFramed f s s' hs hdeclared hlog hcache := by simpa only [hdeclared, hlog, hcache] using hs
  note _ hmessage hs := ⟨hs.1, hs.2.note hmessage⟩
  directive {s id ts d} hpart hdeclares hd hpath hs := by
    let o : Occurrence := ⟨includers, file, data, id, ts, d⟩
    have ho : o.In includers file data := ⟨rfl, rfl, rfl, hpart, hdeclares, fun x hx => (hd x hx).2⟩
    have hrecord : (s.directed id).world.log = o.record :: s.world.log := by
      simp [State.directed, State.noted, Occurrence.record, o, hpath]
    refine ⟨hs.1, ?_⟩
    rw [hrecord]
    exact hs.2.directive ho fun x hx => (hd x hx).1
  merge hs := hs
  hit hs hc _ := by
    rw [hs.1] at hc
    cases hc
  put key f _ hs := ⟨by simp [State.cached, hs.1], hs.2⟩
  pendingPut key f _ hs := ⟨by simp [State.cached, hs.1], hs.2⟩

/-- The directives that are run over a file are recorded, and its declarations are theirs. -/
theorem Registry.parseSource_declared {settings : Settings} {includers : List Text} {file data : Text}
    {n : Nat} {w w' : World} {ns : List Node} {d : Declarations} (hw : w.cache = none)
    (hp : Registry.standard.parseSource settings n includers file data w = .ok (ns, d) w') :
    w'.cache = none ∧ settings.HasDeclared includers file data w.log d w'.log := by
  induction n generalizing includers file data w w' ns d with
  | zero => cases hp
  | succ n ih =>
    cases hlex : Token.lex data with
    | error e =>
      simp only [Registry.parseSource, hlex] at hp
      cases hp
    | ok p =>
      obtain ⟨tokens, trailing⟩ := p
      have htokens : tokens = Token.ofSource data := by rw [Token.ofSource, hlex]
      subst htokens
      have hembeds : (Contract.declaring settings includers file data w.log).Embeds
          (Registry.standard.embedIn settings n includers file) := by
        refine Contract.embeds_of (fun _ _ _ _ => trivial) ?_
        intro name file' data' hnames hleads hnew s _ hs
        dsimp only [Contract.declaring]
        cases hinner : Registry.standard.parseSource settings n (includers ++ [file]) file' data' s.world with
        | error e w' => trivial
        | ok out w' =>
          obtain ⟨hcache, hd⟩ := ih hs.1 hinner
          refine ⟨Postpone.of_forall fun _ _ _ _ => trivial, hcache, ?_⟩
          exact hs.2.template hnames hleads hnew hd out.1
      have hmeets := Contract.parseSource_meets (Contract.standard_obeys _) rfl hlex hembeds (w := w)
        ⟨hw, .nil⟩
      dsimp only [Contract.declaring] at hmeets
      rw [hp] at hmeets
      obtain ⟨-, s, hs, rfl, rfl⟩ := hmeets
      exact hs

/-! ## Templates -/

/-- The position of a declared name is that of its directive. -/
theorem Occurrence.In.isPlaced {o : Occurrence} {includers : List Text} {file data : Text}
    (h : o.In includers file data) {x : Declaration} (hx : x ∈ o.declares) : x.IsPlaced := by
  obtain ⟨p, hp⟩ := (h.part.placed (.head _)).exists_eq
  have hdeclares := h.declares
  rw [Option.mem_def.mp hx] at hdeclares
  cases hdeclares with
  | name => simp [Declaration.IsPlaced, show o.id.pos = some p from hp]
  | _ => trivial

/-- A template that is parsed without a cache: the records that the parse adds are those of the directives
that it runs over the root file, with those over each template where it is included. What the template
declares is what these directives declare, one after another; what they declare about the view they declare
in the root file. -/
theorem Template.declared_sums {settings : Settings} {path src : Text} {w w' : World} {t : Template}
    (hw : w.cache = none) (h : parse .standard settings path src w = .ok t w') :
    ∃ os, Ran settings [] path src os ∧
      directiveRecords w'.log = (os.map Occurrence.record).reverse ++ directiveRecords w.log ∧
      t.declared.Sums (declarations os) ∧
      ∀ o ∈ os, Included settings path src o.includers o.path o.source ∧
        o.In o.includers o.path o.source := by
  obtain ⟨-, os, hran, hrecords, htotal, hfresh⟩ := Registry.parseSource_declared hw (parse_returns h)
  have hin := hran.included .root
  refine ⟨os, hran, hrecords, ?_, hin⟩
  rw [htotal]
  refine Declaration.total_sums hfresh fun x hx => ?_
  obtain ⟨o, ho, hox⟩ := List.mem_filterMap.mp hx
  exact (hin o ho).2.isPlaced hox

/-- A file that two imports are declared in. -/
def Template.sampleImports : Parsing where
  settings := { files := some ⟨[(utf8 "b.html", utf8 "@use \"fmt\"\n@use \"os\"")], false⟩, markdown := .ok }
  path := utf8 "a.html"
  src := utf8 "@use \"os\"\n@rusthtmlfile \"b.html\"\n@use \"io\"\n@lang \"en\""
  expects t :=
    t.declared.imports = [⟨[], utf8 "os"⟩, ⟨[], utf8 "fmt"⟩, ⟨[], utf8 "io"⟩]
  parses := by decide +kernel

/-- An import that is declared before a template and again in it comes once, where it is first. -/
theorem Template.declared_sums_imports : ∃ t w',
    parse .standard sampleImports.settings sampleImports.path sampleImports.src {} = .ok t w' ∧
      t.declared.imports = [⟨[], utf8 "os"⟩, ⟨[], utf8 "fmt"⟩, ⟨[], utf8 "io"⟩] ∧
      ∃ os, directiveRecords w'.log = (os.map Occurrence.record).reverse ∧
        t.declared.Sums (declarations os) := by
  obtain ⟨t, w', h, himports⟩ := WorldM.exists_of_returned sampleImports.parses
  obtain ⟨os, -, hrecords, hsums, -⟩ := declared_sums rfl h
  exact ⟨t, w', h, by simpa [sampleImports] using himports, os, by simpa [directiveRecords] using hrecords, hsums⟩

end Atmark
