import Atmark.Command.Run
import Atmark.Proofs.Site.Steady

/-! Generating twice. A run of the command that succeeds writes each generated file beside its template and
nothing else (`WorkM.writeFiles_wrote`). As long as no template finds one of them by a name in it, and none of
them has the extension of the templates, the next run has the same site but for the new files, and leaves
everything as it is (`WorkM.generate_again`). -/
namespace Atmark
open Path View

/-! ## Paths as they are given to a command -/

namespace Path

/-- The path, relative to the root, stands for a place below it. -/
structure StandsFor (p : Text) (place : List Text) : Prop where
  below : Below place
  nonempty : p ≠ []
  unrooted : isRooted p = false
  cleaned : (elements p).foldl (descend false) [] = place.reverse

variable {p q dir : Text} {place : List Text}

theorem StandsFor.self (h : Below place) : StandsFor (written place) place :=
  ⟨h, written_ne_nil h, isRooted_written h, cleanFrom_written h⟩

theorem StandsFor.clean (h : StandsFor p place) : clean p = written place :=
  clean_eq_written h.unrooted h.below h.cleaned

/-- A path that does not leave the root stands for a place. -/
theorem exists_standsFor (hne : p ≠ []) (hr : isRooted p = false) (hl : leavesRoot (clean p) = false) :
    ∃ place, StandsFor p place := by
  have hes : ∀ e ∈ elements p, slash ∉ e := fun e he => undivided_of_mem_elements he
  cases hw : walk? [] (elements p) with
  | none =>
    rw [leavesRoot_clean hr hw] at hl
    cases hl
  | some place => exact ⟨place, Below.nil.walk hes hw, hne, hr, cleanFrom_of_walk Below.nil hes hw⟩

theorem written_append_elements (place : List Text) (q : Text) :
    written (place ++ elements q) = lead place ++ q := by
  have hne : place ++ elements q ≠ [] := by simp [elements_ne_nil]
  obtain ⟨e, es, hes⟩ := List.exists_cons_of_ne_nil (elements_ne_nil q)
  rw [written_eq_ofElements hne, hes, ofElements_append, ← hes, ofElements_elements]

/-- A file below a directory has a path that goes on from that of the directory. -/
theorem StandsFor.join (h : StandsFor dir place) (hq : Below (elements q)) : join dir q = lead place ++ q := by
  have hne : q ≠ [] := by
    rintro rfl
    exact (hq [] (by decide)).nonempty rfl
  have hjoin : Path.join dir q = Path.clean (dir ++ [slash] ++ q) := by simp [Path.join, h.nonempty, hne]
  have hplace : Below (place ++ elements q) := by
    intro e he
    exact (List.mem_append.mp he).elim (h.below e) (hq e)
  rw [hjoin, ← written_append_elements]
  refine clean_eq_written ?_ hplace ?_
  · rw [List.append_assoc, isRooted_append h.nonempty, h.unrooted]
  · rw [List.append_assoc, List.singleton_append, elements_append, List.foldl_append, h.cleaned]
    exact cleanFrom_of_walk h.below hq.undivided (hplace.walk_append)

theorem StandsFor.append (hplace : Below place) (hq : Below (elements q)) :
    StandsFor (lead place ++ q) (place ++ elements q) := by
  rw [← written_append_elements]
  refine .self ?_
  intro e he
  exact (List.mem_append.mp he).elim (hplace e) (hq e)

end Path

namespace Command.WorkM
variable {α β : Type} {w w₁ w₂ : Work}

theorem bind_eq_ok {m : WorkM α} {f : α → WorkM β} {b : β} :
    (m >>= f) w = .ok b w₂ ↔ ∃ a w₁, m w = .ok a w₁ ∧ f a w₁ = .ok b w₂ := by
  simp only [Bind.bind, EStateM.bind]
  cases m w <;> simp

/-! ## What is found -/

/-- What is at a path that the user wrote. -/
def found (fs : Files) (path : Text) : Except FileTrouble Files.Opened :=
  if path.isEmpty || isRooted path || leavesRoot (clean path) then .error .noEntry
  else (fs.open? (clean path)).mapError FileError.trouble

theorem get_bind_eq (f : Work → WorkM α) (w : Work) : (get >>= f) w = f w w := rfl

theorem look_eq (path : Text) (w : Work) : look path w = .ok (found w.files path) w := by
  unfold look found
  rw [get_bind_eq]
  split
  · rfl
  · cases w.files.open? (clean path) <;> rfl

theorem look_bind (path : Text) (f : Except FileTrouble Files.Opened → WorkM α) (w : Work) :
    (look path >>= f) w = f (found w.files path) w := by
  simp only [Bind.bind, EStateM.bind, look_eq]

theorem found_of_standsFor {path : Text} {place : List Text} (h : StandsFor path place) (fs : Files) :
    found fs path = (fs.open? (written place)).mapError FileError.trouble := by
  have hstay : (path.isEmpty || isRooted path || leavesRoot (clean path)) = false := by
    rw [h.clean, leavesRoot_written h.below, h.unrooted]
    simp [h.nonempty]
  rw [found, if_neg (by simp [hstay]), h.clean]

theorem standsFor_of_found {fs : Files} {path : Text} {o : Files.Opened} (h : found fs path = .ok o) :
    ∃ place, StandsFor path place ∧ fs.open? (written place) = .ok o := by
  have hstay : (path.isEmpty || isRooted path || leavesRoot (clean path)) = false := by
    by_contra hleaves
    rw [Bool.not_eq_false] at hleaves
    rw [found, if_pos hleaves] at h
    cases h
  simp only [Bool.or_eq_false_iff] at hstay
  obtain ⟨place, hplace⟩ := exists_standsFor (by simpa using hstay.1.1) hstay.1.2 hstay.2
  refine ⟨place, hplace, ?_⟩
  rw [found_of_standsFor hplace] at h
  cases hopen : fs.open? (written place) with
  | ok o' =>
    rw [hopen] at h
    cases h
    rfl
  | error e =>
    rw [hopen] at h
    cases h

theorem found_congr {fs fs' : Files} {path : Text} (h : fs'.open? (clean path) = fs.open? (clean path)) :
    found fs' path = found fs path := by
  rw [found, found, h]

/-! ## The site -/

/-- The path of the configuration file. -/
def configPath (o : Options) : Text := if o.config.isEmpty then join o.dir Config.fileName else o.config

theorem isExtension_of_parse {data : Text} {c : Config} (h : Config.parse data = .ok c) :
    Config.isExtension c.extension = true := by
  unfold Config.parse at h
  split at h
  · cases h
  · rename_i c' _
    cases hfault : c'.fault? with
    | some f =>
      rw [hfault] at h
      cases h
    | none =>
      rw [hfault] at h
      cases h
      unfold Config.fault? at hfault
      split at hfault
      · cases hfault
      split at hfault
      · cases hfault
      split at hfault
      · cases hfault
      · rename_i hext
        simpa using hext

/-- A configuration that is loaded is an accepted one, and depends on nothing but its file. -/
theorem loadConfig_ok {path : Text} {c : Config} (h : loadConfig path w = .ok c w₁) :
    w₁ = w ∧ Config.isExtension c.extension = true ∧
      ∀ w', found w'.files path = found w.files path → loadConfig path w' = .ok c w' := by
  unfold loadConfig at h ⊢
  rw [look_bind] at h
  cases hfound : found w.files path with
  | error t =>
    rw [hfound] at h
    cases habsence : t.isAbsence with
    | false =>
      simp only [habsence, Bool.false_eq_true, if_false] at h
      cases h
    | true =>
      simp only [habsence, if_true] at h
      cases h
      refine ⟨rfl, by decide, fun w' hsame => ?_⟩
      rw [look_bind, hsame]
      simp only [habsence, if_true]
      rfl
  | ok o =>
    rw [hfound] at h
    cases o with
    | directory => cases h
    | file data =>
      dsimp only at h
      cases hparse : Config.parse data with
      | error f =>
        rw [hparse] at h
        cases h
      | ok c' =>
        rw [hparse] at h
        cases h
        refine ⟨rfl, isExtension_of_parse hparse, fun w' hsame => ?_⟩
        rw [look_bind, hsame]
        dsimp only
        rw [hparse]
        rfl

/-- The site that is opened has an accepted configuration, and is the same with other files that have the same
configuration file. -/
theorem openSite_ok {o : Options} {s : Site} (h : openSite o w = .ok s w₁) :
    s.files = w.files.below (clean o.dir) ∧ w₁.files = w.files ∧ Config.isExtension s.config.extension = true ∧
      ∀ w', found w'.files (configPath o) = found w.files (configPath o) →
        ∃ w₁', openSite o w' = .ok { s with files := w'.files.below (clean o.dir) } w₁' ∧ w₁'.files = w'.files := by
  unfold openSite at h ⊢
  obtain ⟨c, w₂, hload, hrest⟩ := bind_eq_ok.mp h
  obtain ⟨rfl, hext, hagain⟩ := loadConfig_ok hload
  cases hrest
  refine ⟨rfl, rfl, hext, fun w' hsame => ⟨_, bind_eq_ok.mpr ⟨c, w', hagain w' hsame, rfl⟩, rfl⟩⟩

theorem compileSite_eq_ok {s : Site} {gs : List GeneratedFile} : compileSite s w = .ok gs w₁ ↔
    ∃ world, s.compileAll { cache := some {} } = .ok gs world ∧ w₁ = { w with log := world.log ++ w.log } := by
  unfold compileSite
  cases s.compileAll { cache := some {} } with
  | ok gs' world =>
    constructor
    · intro h
      cases h
      exact ⟨world, rfl, rfl⟩
    · rintro ⟨world', hworld, rfl⟩
      cases hworld
      rfl
  | error e world => simp

/-! ## Writing -/

/-- Where nothing is, there could be a file. -/
theorem admits_of_absence {fs : Files} {p : Text} {e : FileError} (hfile : isFilePath p = true)
    (h : fs.open? p = .error e) (habsence : e.trouble.isAbsence = true) :
    fs.admits p = true ∧ fs.isDirectory p = false := by
  unfold Files.open? at h
  dsimp only at h
  cases hadmits : fs.admits p with
  | false =>
    -- a path that names a file is refused only by the system, and not for that reason
    have hdisk : fs.onDisk = true := by
      rw [Files.admits, hfile] at hadmits
      by_contra hdisk
      simp [hdisk] at hadmits
    simp only [hadmits, Bool.not_false, if_true] at h
    cases h
    simp [Files.absence, hdisk, hadmits, FileTrouble.isAbsence] at habsence
  | true =>
    simp only [hadmits, Bool.not_true, Bool.false_eq_true, if_false] at h
    split at h
    · cases h
    cases hget : fs.get? p with
    | some data =>
      rw [hget] at h
      cases h
    | none =>
      rw [hget] at h
      cases hdir : fs.isDirectory p with
      | false => exact ⟨rfl, rfl⟩
      | true =>
        simp only [hdir, if_true] at h
        cases h

/-- A file generated from a template of a directory. -/
structure Output (fs : Files) (place : List Text) (g : GeneratedFile) : Prop where
  path : g.path = outputPath g.template
  below : Below (elements g.template)
  mem : lead place ++ g.template ∈ fs.paths

/-- The path and the content of a generated file. -/
def entryOf (place : List Text) (g : GeneratedFile) : Text × Text := (lead place ++ g.path, g.source)

variable {dir : Text} {place : List Text} {g : GeneratedFile} {gs : List GeneratedFile} {n : Nat}

namespace Output
variable {fs : Files} (hg : Output fs place g)
include hg

theorem below_path : Below (elements g.path) := hg.path ▸ below_outputPath hg.below

/-- The file is written beside its template, where it is or where nothing is. -/
theorem wrote_put (htree : fs.IsTree) (hadmits : fs.admits (lead place ++ g.path) = true)
    (hfree : lead place ++ g.path ∈ fs.paths ∨ fs.isDirectory (lead place ++ g.path) = false) :
    fs.Wrote (fs.put (lead place ++ g.path) g.source) [entryOf place g] := by
  have hout : lead place ++ g.path = outputPath (lead place ++ g.template) := by
    rw [hg.path, outputPath, outputPath, List.append_assoc]
  rw [entryOf]
  rw [hout] at hadmits hfree ⊢
  exact Files.wrote_put_output htree hg.mem hadmits hfree g.source

variable (hplace : Below place)
include hplace

theorem clean_path : Path.clean (lead place ++ g.path) = lead place ++ g.path := by
  rw [(StandsFor.append hplace hg.below_path).clean, written_append_elements]

theorem isFilePath_path (htree : fs.IsTree) : isFilePath (lead place ++ g.path) = true := by
  have hne : g.template ≠ here := by
    intro hhere
    have hsingle : here ∈ elements here := by decide
    exact (hg.below here (hhere ▸ hsingle)).notHere rfl
  have hfile := isFilePath_outputPath (htree.named _ hg.mem) (Files.lead_append_ne_here hplace hne)
  rwa [outputPath, List.append_assoc, ← outputPath, ← hg.path] at hfile

end Output

/-- One generated file is written, or is there already, and then come the others. -/
theorem writeFiles_cons (hdir : StandsFor dir place) (htree : w.files.IsTree) (hg : Output w.files place g)
    (h : writeFiles dir (g :: gs) w = .ok n w₁) :
    ∃ m w₂, w.files.Wrote w₂.files [entryOf place g] ∧ writeFiles dir gs w₂ = .ok m w₁ := by
  have hput (hadmits : w.files.admits (lead place ++ g.path) = true)
      (hfree : lead place ++ g.path ∈ w.files.paths ∨ w.files.isDirectory (lead place ++ g.path) = false)
      (h : (do
        modify fun w => { w with files := w.files.put (lead place ++ g.path) g.source }
        return (← writeFiles dir gs) + 1 : WorkM Nat) w = .ok n w₁) :
      ∃ m w₂, w.files.Wrote w₂.files [entryOf place g] ∧ writeFiles dir gs w₂ = .ok m w₁ := by
    obtain ⟨_, w₂, hmodify, hrest⟩ := bind_eq_ok.mp h
    obtain ⟨m, w₃, hwrite, hreturn⟩ := bind_eq_ok.mp hrest
    cases hmodify
    cases hreturn
    exact ⟨m, _, hg.wrote_put htree hadmits hfree, hwrite⟩
  rw [writeFiles] at h
  dsimp only at h
  rw [hdir.join hg.below_path, look_bind, found_of_standsFor (.append hdir.below hg.below_path),
    written_append_elements, hg.clean_path hdir.below] at h
  cases hopen : w.files.open? (lead place ++ g.path) with
  | ok o =>
    rw [hopen] at h
    cases o with
    | directory => cases h
    | file old =>
      simp only [Except.mapError] at h
      split at h
      · rename_i hsame
        exact ⟨n, w, .of_open htree (hsame ▸ hopen), h⟩
      · have hmem : lead place ++ g.path ∈ w.files.paths :=
          Files.mem_paths_of_get? (by rw [Files.get?_of_open? hopen]; rfl)
        exact hput (Files.admits_of_open? hopen) (.inl hmem) h
  | error e =>
    rw [hopen] at h
    simp only [Except.mapError] at h
    cases habsence : e.trouble.isAbsence with
    | false =>
      simp only [habsence, Bool.not_false, if_true] at h
      cases h
    | true =>
      simp only [habsence, Bool.not_true, Bool.false_eq_true, if_false] at h
      obtain ⟨hadmits, hfree⟩ := admits_of_absence (hg.isFilePath_path hdir.below htree) hopen habsence
      exact hput hadmits (.inr hfree) h

/-- Generated files are written beside their templates, and nothing else is. -/
theorem writeFiles_wrote (hdir : StandsFor dir place) (htree : w.files.IsTree)
    (hgs : ∀ g ∈ gs, Output w.files place g) (hdistinct : (gs.map (·.path)).Nodup)
    (h : writeFiles dir gs w = .ok n w₁) : w.files.Wrote w₁.files (gs.map (entryOf place)) := by
  induction gs generalizing w n with
  | nil =>
    cases h
    exact .refl htree
  | cons g gs ih =>
    obtain ⟨m, w₂, hfirst, hrest⟩ := writeFiles_cons hdir htree (hgs g List.mem_cons_self) h
    obtain ⟨hapart, hdistinct⟩ := List.nodup_cons.mp hdistinct
    have hgs' : ∀ g ∈ gs, Output w₂.files place g := by
      intro g' hg'
      have hold := hgs g' (List.mem_cons_of_mem _ hg')
      exact ⟨hold.path, hold.below, (hfirst.mem_paths _).mpr (.inl hold.mem)⟩
    refine hfirst.trans (ih hfirst.tree hgs' hdistinct hrest) fun f hf hmem => hapart ?_
    rw [List.mem_singleton.mp hf, List.map_map] at hmem
    obtain ⟨g', hg', hpath⟩ := List.mem_map.mp hmem
    exact List.mem_map.mpr ⟨g', hg', List.append_cancel_left hpath⟩

/-- Files that are there with their contents are not written again. -/
theorem writeFiles_none (h : ∀ g ∈ gs, found w.files (join dir g.path) = .ok (.file g.source)) :
    writeFiles dir gs w = .ok 0 w := by
  induction gs with
  | nil => rfl
  | cons g gs ih =>
    rw [writeFiles]
    dsimp only
    rw [look_bind, h g List.mem_cons_self]
    simp only [if_true]
    exact ih fun g' hg' => h g' (List.mem_cons_of_mem _ hg')

/-! ## The module -/

/-- The step, if it ends well, only adds records, and adds them whatever was recorded before. -/
def OnlyRecords (m : WorkM Unit) : Prop := ∀ w w₁, m w = .ok () w₁ →
  ∃ records, ∀ w', w'.files = w.files → m w' = .ok () { w' with log := records ++ w'.log }

namespace OnlyRecords

theorem note (level : Level) (message : String) (fields : List (String × Text)) :
    OnlyRecords (WorkM.note level message fields) := fun _ _ _ => ⟨[⟨message, fields, level⟩], fun _ _ => rfl⟩

theorem pure : OnlyRecords (Pure.pure ()) := fun _ _ _ => ⟨[], fun _ _ => rfl⟩

theorem throw (message : Text) : OnlyRecords (MonadExcept.throw message) := by
  intro w w₁ h
  cases h

theorem throw_bind (message : Text) (f : PUnit → WorkM Unit) :
    OnlyRecords (MonadExcept.throw message >>= f) := by
  intro w w₁ h
  cases h

theorem get_bind {f : Work → WorkM Unit} (hfiles : ∀ w w', w'.files = w.files → f w' = f w)
    (hf : ∀ w, OnlyRecords (f w)) : OnlyRecords (get >>= f) := by
  intro w w₁ hrun
  obtain ⟨records, hsame⟩ := hf w w w₁ hrun
  refine ⟨records, fun w' hw' => ?_⟩
  rw [get_bind_eq, hfiles w w' hw']
  exact hsame w' hw'

theorem files_eq {m : WorkM Unit} (h : OnlyRecords m) (hrun : m w = .ok () w₁) : w₁.files = w.files := by
  obtain ⟨records, hsame⟩ := h w w₁ hrun
  have hlog := hsame w rfl
  rw [hrun] at hlog
  cases hlog
  rfl

theorem checkModule (root dir : Text) : OnlyRecords (WorkM.checkModule root dir) := by
  unfold WorkM.checkModule
  refine get_bind (fun w w' hw => by rw [hw]) fun w => ?_
  dsimp only
  split
  · exact note _ _ _
  split
  · exact throw _
  split
  · exact throw_bind _ _
  split
  · exact throw_bind _ _
  split
  · exact pure
  split
  · exact note _ _ _
  · exact note _ _ _

end OnlyRecords

/-! ## The command -/

/-- The record of a run that compiled some templates and wrote some files. -/
def generated (templates written : Nat) : Record :=
  ⟨"generated", [("templates", Text.ofNat templates), ("written", Text.ofNat written)], .info⟩

theorem generate_eq_ok {root : Text} {o : Options} : generate root o w = .ok () w₁ ↔
    found w.files o.dir = .ok .directory ∧ ∃ s w₂ gs w₃ n w₄, openSite o w = .ok s w₂ ∧
      compileSite s w₂ = .ok gs w₃ ∧ writeFiles o.dir gs w₃ = .ok n w₄ ∧
      checkModule root o.dir { w₄ with log := generated gs.length n :: w₄.log } = .ok () w₁ := by
  have hnote (gs : List GeneratedFile) (n : Nat) (w : Work) (f : Unit → WorkM Unit) :
      (note .info "generated" [("templates", Text.ofNat gs.length), ("written", Text.ofNat n)] >>= f) w =
        f () { w with log := generated gs.length n :: w.log } := rfl
  unfold generate
  rw [look_bind]
  cases hfound : found w.files o.dir with
  | error t =>
    constructor
    · intro h
      cases h
    · intro h
      cases h.1
  | ok p =>
    cases p with
    | file data =>
      constructor
      · intro h
        cases h
      · intro h
        cases h.1
    | directory =>
      simp only [bind_eq_ok, hnote, true_and]
      constructor
      · rintro ⟨s, w₂, hopen, gs, w₃, hcompile, n, w₄, hwrite, hcheck⟩
        exact ⟨s, w₂, gs, w₃, n, w₄, hopen, hcompile, hwrite, hcheck⟩
      · rintro ⟨s, w₂, gs, w₃, n, w₄, hopen, hcompile, hwrite, hcheck⟩
        exact ⟨s, w₂, hopen, gs, w₃, hcompile, n, w₄, hwrite, hcheck⟩

/-- What is at a path is the same after files were written, if the path leads neither to one of them nor
through one. -/
theorem found_wrote {fs fs' : Files} {new : List (Text × Text)} {path : Text} (h : fs.Wrote fs' new)
    (hapart : ∀ f ∈ new, ¬ elements f.1 <+: elements (clean path)) : found fs' path = found fs path := by
  refine found_congr (h.open?_eq fun f hf => ⟨?_, ?_⟩)
  · intro heq
    exact hapart f hf (heq ▸ List.prefix_rfl)
  · by_contra hstarts
    rw [Bool.not_eq_false, startsWith_iff] at hstarts
    obtain ⟨rest, hrest⟩ := hstarts
    refine hapart f hf ⟨elements rest, ?_⟩
    rw [hrest, List.append_assoc, List.singleton_append, elements_append]

/-- The configuration of a directory is none of the generated files. -/
theorem configPath_apart {o : Options} {p : Text} (hdir : StandsFor o.dir place) (hp : Below (elements p))
    (hconfig : o.config = [] ∨ ¬ elements (join o.dir (outputPath p)) <+: elements (clean o.config)) :
    ¬ elements (lead place ++ outputPath p) <+: elements (clean (configPath o)) := by
  by_cases hempty : o.config = []
  · intro hprefix
    have hname : elements Config.fileName = [Config.fileName] := by decide
    have hbelow : Below (elements Config.fileName) := below_elements (by decide) (by decide)
    have hpath := StandsFor.append hdir.below hbelow
    rw [configPath, if_pos (by simp [hempty]), hdir.join hbelow, hpath.clean, written_append_elements,
      Files.elements_lead_append hdir.below, Files.elements_lead_append hdir.below, hname] at hprefix
    have hshort : elements (outputPath p) <+: [Config.fileName] := (List.prefix_append_right_inj place).mp hprefix
    have hsame : elements (outputPath p) = [Config.fileName] := by
      rcases List.prefix_cons_iff.mp hshort with hnil | ⟨rest, hrest, hnone⟩
      · exact absurd hnil (elements_ne_nil _)
      · rw [hrest, List.prefix_nil.mp hnone]
    have hlast := congrArg List.getLast? (elements_injective (hsame.trans hname.symm))
    rw [outputPath, List.getLast?_append_of_ne_nil _ (by decide)] at hlast
    exact absurd hlast (by decide)
  · rw [configPath, if_neg (by simpa using hempty), ← hdir.join (below_outputPath hp)]
    exact hconfig.resolve_left hempty

/-- A directory is none of the files below it. -/
theorem lead_append_ne_written {q : Text} (hplace : Below place) (hq : q ≠ here) :
    lead place ++ q ≠ written place := by
  intro h
  have helements := Files.elements_lead_append hplace q
  rw [h, elements_written hplace] at helements
  split at helements
  · rename_i hroot
    have hhere : elements here = [here] := by decide
    rw [hroot, List.nil_append, ← hhere] at helements
    exact hq (elements_injective helements).symm
  · exact elements_ne_nil q (by simpa using helements)

section Generate
variable {root : Text} {o : Options} {s : Site} {ps : List Text} {w₀ : Work}

/-- What a run over a directory did that compiled all templates of its site: it wrote their generated files beside
them and left everything else as it was. -/
structure Ran (o : Options) (s : Site) (ps : List Text) (fs fs' : Files) (place : List Text)
    (gs : List GeneratedFile) : Prop where
  dir : StandsFor o.dir place
  directory : fs.open? (written place) = .ok .directory
  site : s.files = fs.below (written place)
  templates : s.templates = .ok ps
  compiled : ∃ world, s.compileAll { cache := some {} } = .ok gs world
  paths : gs.map (·.path) = ps.map outputPath
  outputs : ∀ g ∈ gs, Output fs place g
  wrote : fs.Wrote fs' (gs.map (entryOf place))

/-- The templates of a site are files of its directory. -/
theorem output_of_mem {fs : Files} (htree : fs.IsTree) (hplace : Below place)
    (hsite : s.files = fs.below (written place)) (hext : Config.isExtension s.config.extension = true)
    (htemplates : s.templates = .ok ps) (hpath : g.path = outputPath g.template) (hg : g.template ∈ ps) :
    Output fs place g := by
  have hfiles : s.files.IsTree := hsite ▸ htree.below hplace
  obtain ⟨hmem, -, hne⟩ := Site.mem_templates hfiles hext htemplates hg
  refine ⟨hpath, below_elements (hfiles.named _ hmem) hne, ?_⟩
  rw [hsite] at hmem
  exact (Files.mem_paths_below hplace).mp hmem

/-- A run that succeeds did all that, and the module of what it leaves passes the check. -/
theorem generate_ran (htree : w.files.IsTree) (hopen : openSite o w = .ok s w₀)
    (htemplates : s.templates = .ok ps) (hrun : generate root o w = .ok () w₁) :
    ∃ place gs, Ran o s ps w.files w₁.files place gs ∧ ∀ w', w'.files = w₁.files →
      ∃ records, checkModule root o.dir w' = .ok () { w' with log := records ++ w'.log } := by
  obtain ⟨hfound, s', w₂, gs, w₃, n, w₄, hopen', hcompile, hwrite, hcheck⟩ := generate_eq_ok.mp hrun
  rw [hopen] at hopen'
  cases hopen'
  obtain ⟨place, hdir, hdirectory⟩ := standsFor_of_found hfound
  obtain ⟨hsite, hw₀, hext, -⟩ := openSite_ok hopen
  rw [hdir.clean] at hsite
  obtain ⟨world, hall, rfl⟩ := compileSite_eq_ok.mp hcompile
  obtain ⟨ps', hps', heach⟩ := Site.compileAll_ok.mp hall
  rw [htemplates] at hps'
  cases hps'
  obtain ⟨rfl, hbeside⟩ := Site.compileEach_files heach
  have hpaths : gs.map (·.path) = (gs.map (·.template)).map outputPath := by
    rw [List.map_map]
    exact List.map_congr_left hbeside
  have houtputs : ∀ g ∈ gs, Output w.files place g := fun g hg =>
    output_of_mem htree hdir.below hsite hext htemplates (hbeside g hg) (List.mem_map_of_mem hg)
  have hdistinct : (gs.map (·.path)).Nodup := by
    rw [hpaths]
    refine (Site.templates_nodup (hsite ▸ htree.below hdir.below) htemplates).map fun p q h => ?_
    exact List.append_cancel_right h
  have hwrote := writeFiles_wrote hdir (w := { w₀ with log := world.log ++ w₀.log }) (hw₀ ▸ htree)
    (hw₀ ▸ houtputs) hdistinct hwrite
  have hchecks := OnlyRecords.checkModule root o.dir
  have hleft : w₁.files = w₄.files := (hchecks.files_eq hcheck :)
  obtain ⟨records, hagain⟩ := hchecks _ _ hcheck
  refine ⟨place, gs, ⟨hdir, hdirectory, hsite, htemplates, ⟨world, hall⟩, hpaths, houtputs, ?_⟩, ?_⟩
  · rw [hleft, ← hw₀]
    exact hwrote
  · exact fun w' hw' => ⟨records, hagain w' (hw'.trans hleft)⟩

namespace Ran
variable {fs fs' : Files} (h : Ran o s ps fs fs' place gs) (htree : fs.IsTree)
include h htree

/-- With another extension than generated files have, none of these is a template. -/
theorem endsWith_output (hvalid : Config.isExtension s.config.extension = true)
    (hext : ∀ n, s.config.extension ≠ generatedTimes n) {p : Text} (hp : p ∈ ps) :
    Text.endsWith s.config.extension p = true ∧ Text.endsWith s.config.extension (outputPath p) = false := by
  have hfiles : s.files.IsTree := h.site ▸ htree.below h.dir.below
  obtain ⟨-, htemplate, -⟩ := Site.mem_templates hfiles hvalid h.templates hp
  refine ⟨htemplate, ?_⟩
  by_contra hout
  obtain ⟨n, hn⟩ := (endsWith_outputPath_iff hvalid htemplate).mp (Bool.of_not_eq_false hout)
  exact hext n hn

theorem output_not_mem (hvalid : Config.isExtension s.config.extension = true)
    (hext : ∀ n, s.config.extension ≠ generatedTimes n) : ∀ p ∈ ps, p ∉ ps.map outputPath := by
  intro p hp hmem
  obtain ⟨q, hq, rfl⟩ := List.mem_map.mp hmem
  have htemplate := (h.endsWith_output htree hvalid hext hp).1
  rw [(h.endsWith_output htree hvalid hext hq).2] at htemplate
  cases htemplate

/-- The site has the same templates and the same generated files as before. -/
theorem site_again (hvalid : Config.isExtension s.config.extension = true)
    (hext : ∀ n, s.config.extension ≠ generatedTimes n)
    (havoids : ({ s with files := fs'.below (written place) } : Site).settings.Avoids ps (ps.map outputPath)) :
    ({ s with files := fs'.below (written place) } : Site).templates = .ok ps ∧
      ∃ world, ({ s with files := fs'.below (written place) } : Site).compileAll { cache := some {} } =
        .ok gs world := by
  have hfiles : s.files.IsTree := h.site ▸ htree.below h.dir.below
  have hnew : (gs.map fun g => (g.path, g.source)).map (·.1) = ps.map outputPath := by
    rw [List.map_map]
    exact h.paths
  have hwrote : s.files.Wrote (fs'.below (written place)) (gs.map fun g => (g.path, g.source)) := by
    rw [h.site]
    refine Files.wrote_below h.dir.below ?_ ?_
    · rw [List.map_map]
      exact h.wrote
    · intro f hf
      obtain ⟨g, hg, rfl⟩ := List.mem_map.mp hf
      rw [(h.outputs g hg).path]
      exact Files.outputPath_ne_here _
  have htemplates : ({ s with files := fs'.below (written place) } : Site).templates = .ok ps := by
    rw [Site.templates_wrote hfiles hvalid hwrote, h.templates]
    intro f hf
    have hmem := List.mem_map_of_mem (f := (·.1)) hf
    rw [hnew] at hmem
    obtain ⟨p, hp, hpath⟩ := List.mem_map.mp hmem
    rw [← hpath]
    exact (h.endsWith_output htree hvalid hext hp).2
  have hretains : s.Retains (fs'.below (written place)) ps := by
    refine .of_wrote hwrote ?_ ?_ hfiles
    · rw [hnew]
      exact h.output_not_mem htree hvalid hext
    · rw [hnew]
      exact havoids
  obtain ⟨world, hall⟩ := h.compiled
  exact ⟨htemplates, Site.compileAll_again hretains h.templates htemplates hall⟩

omit htree

/-- The directory is still there, and so are the generated files. -/
theorem found_dir : found fs' o.dir = .ok .directory := by
  have hnot : written place ∉ (gs.map (entryOf place)).map (·.1) := by
    intro hmem
    obtain ⟨f, hf, hpath⟩ := List.mem_map.mp hmem
    obtain ⟨g, hg, rfl⟩ := List.mem_map.mp hf
    refine lead_append_ne_written h.dir.below ?_ hpath
    rw [(h.outputs g hg).path]
    exact Files.outputPath_ne_here _
  rw [found_of_standsFor h.dir, (h.wrote.open?_ok hnot).mpr h.directory]
  rfl

theorem found_output (hg : g ∈ gs) : found fs' (join o.dir g.path) = .ok (.file g.source) := by
  have hbelow := (h.outputs g hg).below_path
  have hopen := h.wrote.written _ (List.mem_map_of_mem (f := entryOf place) hg)
  rw [h.dir.join hbelow, found_of_standsFor (.append h.dir.below hbelow), written_append_elements]
  simp only [entryOf] at hopen
  rw [hopen]
  rfl

/-- So is the configuration, if that is none of them. -/
theorem found_config (hconfig : o.config = [] ∨
    ∀ p ∈ ps, ¬ elements (join o.dir (outputPath p)) <+: elements (clean o.config)) :
    found fs' (configPath o) = found fs (configPath o) := by
  refine found_wrote h.wrote fun f hf => ?_
  obtain ⟨g, hg, rfl⟩ := List.mem_map.mp hf
  have hpath := (h.outputs g hg).path
  have hmem : outputPath g.template ∈ ps.map outputPath := by
    rw [← hpath, ← h.paths]
    exact List.mem_map_of_mem hg
  obtain ⟨p, hp, hsame⟩ := List.mem_map.mp hmem
  rw [entryOf, hpath]
  refine configPath_apart h.dir (h.outputs g hg).below (hconfig.imp_right fun hconfig => ?_)
  rw [← hsame]
  exact hconfig p hp

end Ran

end Generate

/-! ## A sample -/

/-- A page that takes in another file. -/
def samplePage : Files := ⟨[(utf8 "a.rhtml", utf8 "@htmlfile \"p.html\""), (utf8 "p.html", utf8 "X")], true⟩

/-- The site with no configuration file. -/
def sampleSite : Site := { files := samplePage }

/-- The page with its generated file. -/
def sampleGenerated (source : Text) : Files :=
  { samplePage with entries := samplePage.entries ++ [(utf8 "a.rhtml.go", source)] }

/-- The site with the generated file. -/
def sampleAgain (source : Text) : Site := { sampleSite with files := sampleGenerated source }

theorem sampleSite_templates : sampleSite.templates = .ok [utf8 "a.rhtml"] := by
  have hlist : samplePage.list here = [⟨utf8 "a.rhtml", false, 18⟩, ⟨utf8 "p.html", false, 1⟩] := by
    simp only [Files.list]
    rw [Text.sort_of_sorted]
    · rfl
    · decide
  have hwalk : samplePage.walk samplePage.depthBound here = .ok [utf8 "a.rhtml", utf8 "p.html"] := by
    rw [show samplePage.depthBound = 8 from rfl, Files.walk, hlist]
    rfl
  unfold Site.templates
  rw [sampleSite, hwalk]
  change Except.ok (Text.sort _) = _
  rw [Text.sort_of_sorted]
  · rfl
  · decide

theorem openSite_sample : ∃ w₀, openSite {} { files := samplePage } = .ok sampleSite w₀ ∧
    w₀.files = samplePage := by
  have hfound : found samplePage (configPath {}) = .error .noEntry := rfl
  have hload : loadConfig (configPath {}) { files := samplePage } = .ok {} { files := samplePage } := by
    rw [loadConfig, look_bind, hfound]
    rfl
  exact ⟨_, bind_eq_ok.mpr ⟨_, _, hload, rfl⟩, rfl⟩

theorem writeFiles_sample (source : Text) (log : List Record) :
    writeFiles here [⟨utf8 "a.rhtml", outputPath (utf8 "a.rhtml"), source⟩] { files := samplePage, log } =
      .ok 1 { files := sampleGenerated source, log } := by
  have hmissing : found samplePage (utf8 "a.rhtml.go") = .error .noEntry := rfl
  have hjoin : join here (outputPath (utf8 "a.rhtml")) = utf8 "a.rhtml.go" := rfl
  have hclean : Path.clean (utf8 "a.rhtml.go") = utf8 "a.rhtml.go" := rfl
  have hput : samplePage.put (utf8 "a.rhtml.go") source = sampleGenerated source := by
    have hnew : samplePage.entries.any (·.1 = utf8 "a.rhtml.go") = false := rfl
    rw [Files.put, hnew]
    rfl
  rw [writeFiles]
  dsimp only
  rw [look_bind, hjoin, hmissing, hclean]
  simp only [FileTrouble.isAbsence, Bool.not_true, Bool.false_eq_true, if_false]
  refine bind_eq_ok.mpr ⟨(), { files := sampleGenerated source, log }, ?_, rfl⟩
  rw [← hput]
  rfl

theorem checkModule_sample (source : Text) (log : List Record) :
    ∃ w, checkModule [] here { files := sampleGenerated source, log } = .ok () w ∧
      w.files = sampleGenerated source := by
  have hpaths : moduleFiles (Path.clean here) = [utf8 "go.mod"] := rfl
  have hfind : (moduleFiles (Path.clean here)).find? (fun p => ((sampleGenerated source).open? p).isOk) = none := by
    rw [hpaths]
    rfl
  unfold checkModule
  rw [get_bind_eq]
  dsimp only
  rw [hfind]
  exact ⟨_, rfl, rfl⟩

theorem generate_sample : ∃ source w₁, generate [] {} { files := samplePage } = .ok () w₁ ∧
    w₁.files = sampleGenerated source := by
  have hreturned : WorldM.returned (fun _ => true)
      (sampleSite.compile (utf8 "a.rhtml") { cache := some {} }) = true := by
    decide +kernel
  obtain ⟨source, world, hcompile, -⟩ := WorldM.exists_of_returned hreturned
  have heach : sampleSite.compileEach [] (Site.compiled (utf8 "a.rhtml") source world) = .ok ([], []) _ := rfl
  have hall := Site.compileAll_ok.mpr ⟨_, sampleSite_templates, Site.compileEach_cons hcompile heach⟩
  obtain ⟨⟨files, log⟩, hopen, rfl⟩ := openSite_sample
  obtain ⟨w₁, hcheck, hfiles⟩ := checkModule_sample source _
  have hdir : found samplePage here = .ok .directory := rfl
  exact ⟨source, w₁, generate_eq_ok.mpr ⟨hdir, _, _, _, _, _, _, hopen, compileSite_eq_ok.mpr ⟨_, hall, rfl⟩,
    writeFiles_sample source _, hcheck⟩, hfiles⟩

section Sample
variable {source file name found data : Text}

/-- Only the page names a content. -/
theorem named_sample (hfile : file = utf8 "a.rhtml" ∨ file = utf8 "p.html")
    (hdata : (sampleAgain source).settings.Has file data)
    (hname : Directive.Names Directive.contentNames (Token.ofSource data) name) :
    file = utf8 "a.rhtml" ∧ name = utf8 "p.html" := by
  have hmem := hname.mem_namesIn
  cases hfile with
  | inl hpage =>
    have hpageData : (sampleAgain source).settings.Has file
        (utf8 "@htmlfile \"p.html\"") := ⟨_, rfl, by rw [hpage]; rfl⟩
    have hnames : Directive.namesIn Directive.contentNames (utf8 "@htmlfile \"p.html\"") = [utf8 "p.html"] := by
      decide +kernel
    rw [hpageData.unique hdata, hnames] at hmem
    exact ⟨hpage, List.mem_singleton.mp hmem⟩
  | inr hpart =>
    have hpartData : (sampleAgain source).settings.Has file (utf8 "X") :=
      ⟨_, rfl, by rw [hpart]; rfl⟩
    have hnames : Directive.namesIn Directive.contentNames (utf8 "X") = [] := by decide +kernel
    rw [hpartData.unique hdata, hnames] at hmem
    cases hmem

theorem leads_sample (h : (sampleAgain source).settings.Leads
    (utf8 "a.rhtml") (utf8 "p.html") found data) : found = utf8 "p.html" := by
  have hresolve : resolve? (utf8 "a.rhtml") (utf8 "p.html") = some (utf8 "p.html", utf8 "p.html") := rfl
  obtain ⟨-, -, first, second, hpaths, hfound⟩ := Settings.leads_cases h
  rw [hresolve] at hpaths
  cases hpaths
  exact hfound.elim id id

theorem avoids_sample (source : Text) :
    (sampleAgain source).settings.Avoids [utf8 "a.rhtml"] [utf8 "a.rhtml.go"] := by
  intro file name found data hmentions hleads
  obtain ⟨⟨p, hp, hreach⟩, src, hsrc, hname⟩ := hmentions
  have hfile : file = utf8 "a.rhtml" ∨ file = utf8 "p.html" := by
    clear hleads hsrc
    induction hreach with
    | refl => exact .inl (List.mem_singleton.mp hp)
    | tail _ hincl ih =>
      obtain ⟨src', name', data', hsrc', hasks, hleads⟩ := hincl
      obtain ⟨rfl, rfl⟩ := named_sample ih hsrc' (hasks.mono (List.subset_append_left _ _))
      exact .inr (leads_sample hleads)
  obtain ⟨rfl, rfl⟩ := named_sample hfile hsrc hname
  rw [leads_sample hleads]
  decide

end Sample

end Command.WorkM
end Atmark
