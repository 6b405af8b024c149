import Mathlib.Data.Set.Basic
import Atmark.Proofs.Cache.Coherent
import Atmark.Proofs.Code.Bare
import Atmark.Proofs.Directive.Lockstep

/-! Compilations that share a cache. A content that was found one directory higher is kept under the path
where it was looked for first, and a page that names this path itself gets it from the cache, though there is
nothing. On files that do not change, a shared cache changes no outcome if the first path decides what is
found (`outcomes_shared`). When files change, it is not enough to forget the fragments of their paths: the
templates that include them, directly or not, hold their old contents too. Once all of those are forgotten,
every outcome is that of an empty cache (`outcomes_evicted`). -/
namespace Atmark
open Node Pairing WorldM

/-! ## Compilations -/

/-- What a parsed template declares, and its code as text. -/
def Template.lowered (settings : Settings) (t : Template) : WorldM (Declarations × Text) := do
  return (t.declared, Token.format (← Code.ofNodes settings t.nodes))

/-- A compilation: of the template at a path of the files, or of a source that is given for a path. -/
inductive Job where
  | file (path : Text)
  | source (path src : Text)

namespace Job

/-- Compiles a template. -/
def run (r : Registry) (settings : Settings) : Job → WorldM (Declarations × Text)
  | .file path => do (← Template.parseFile r settings path).lowered settings
  | .source path src => do (← Template.parse r settings path src).lowered settings

/-- A source that is given for a path is the one that the files have there, if they have one. -/
def Faithful (settings : Settings) : Job → Prop
  | .file _ => True
  | .source path src => ∀ data, settings.Has path data → data = src

/-- What a compilation returns, with a cache or without. -/
def outcome (r : Registry) (settings : Settings) (cache : Option Cache) (job : Job) :
    Except Error (Declarations × Text) :=
  (job.run r settings).outcome { cache }

/-- The cache after a compilation. -/
def cacheAfter (r : Registry) (settings : Settings) (c : Cache) (job : Job) : Cache :=
  ((job.run r settings).after { cache := some c }).cache.getD c

/-- What compilations that share a cache return, one after another. -/
def outcomes (r : Registry) (settings : Settings) :
    List Job → Cache → List (Except Error (Declarations × Text))
  | [], _ => []
  | job :: jobs, c =>
    job.outcome r settings (some c) :: outcomes r settings jobs (job.cacheAfter r settings c)

end Job

section Compile
variable {r : Registry} {settings : Settings} {named : Named} {path src : Text} {c : Cache}

/-- Nodes that are bare the same are lowered to the same outcome. -/
theorem Template.lowered_agree {t t' : Template} (hdeclared : t'.declared = t.declared)
    (hnodes : bareAll t.nodes = bareAll t'.nodes) :
    Agree id (t.lowered settings) (t'.lowered settings) := by
  refine (Code.ofNodes_bare settings hnodes).bind fun code code' hcode => .pure ?_
  rw [hdeclared, hcode]

theorem Template.includeBound_eq (settings : Settings) :
    includeBound settings = settings.paths.length + 2 + 1 := by
  cases hfiles : settings.files <;> simp [includeBound, Settings.paths, hfiles]

/-- What is made of a parsed template does not show where its texts stand. -/
def Template.Shared {β : Type} (k : Template → WorldM β) : Prop :=
  ∀ ⦃t t' : Template⦄, t'.path = t.path → t'.declared = t.declared → bareAll t.nodes = bareAll t'.nodes →
    Agree id (k t) (k t')

/-- A source is parsed below no file, and then something is made of it. -/
theorem Template.parse_bind {β : Type} (r : Registry) (settings : Settings) (path src : Text)
    (k : Template → WorldM β) (w : World) :
    (parse r settings path src >>= k) w =
      match r.parseSource settings (settings.paths.length + 2 + 1) [] path src w with
      | .ok (ns, d) w => k ⟨path, d, ns⟩ w
      | .error e w => .error e w := by
  simp only [parse, Template.includeBound_eq, Bind.bind, EStateM.bind]
  cases r.parseSource settings (settings.paths.length + 2 + 1) [] path src w <;> rfl

/-- What is made of a source is the same with a cache and without one, and the cache stays right. -/
theorem Template.parse_bind_cached {β : Type} {k : Template → WorldM β} (hk : Shared k) (hr : r.Blind)
    (hcons : settings.Consistent named)
    (hall : ∀ file src, settings.Has file src → named.Covers file src)
    (hcovers : named.Covers path src) (hsrc : ∀ data, settings.Has path data → data = src)
    {w v : World} (hbudget : w.budget = none ∧ v.budget = none)
    (hc : ∃ c, w.cache = some c ∧ r.Valid settings named c) (hnone : v.cache = none) :
    (parse r settings path src >>= k).outcome w = (parse r settings path src >>= k).outcome v ∧
      ∃ c, ((parse r settings path src >>= k).after w).cache = some c ∧ r.Valid settings named c := by
  have hroom : settings.Room (settings.paths.length + 2) ([] ++ [path]) :=
    .of_length (by simp) (by omega)
  have hends := Registry.parseSource_cached hr hcons hall (settings.paths.length + 2) hbudget
    ⟨hc, hnone⟩ List.not_mem_nil hcovers hsrc fun _ _ => hroom
  simp only [outcome, after, Template.parse_bind]
  generalize r.parseSource settings (settings.paths.length + 2 + 1) [] path src w = x at hends ⊢
  generalize r.parseSource settings (settings.paths.length + 2 + 1) [] path src v = y at hends ⊢
  cases hends with
  | @ok ns ns' d w₁ v₁ hns _ hcaches =>
    have hagree : Agree id (k ⟨path, d, ns⟩) (k ⟨path, d, ns'⟩) := hk rfl rfl hns
    refine ⟨hagree.outcome_eq w₁ v₁, ?_⟩
    show ∃ c, ((k ⟨path, d, ns⟩).after w₁).cache = some c ∧ r.Valid settings named c
    rw [hagree.cache_after]
    exact hcaches.1
  | error hcaches => exact ⟨rfl, hcaches.1⟩
  | bad he =>
    -- no file includes this one, so no cycle closes at such a file
    obtain ⟨p, hp, -⟩ := he
    cases hp
  | lost he => exact he.elim

/-- A source is compiled alike with a cache and without one, and the cache stays right. -/
theorem compile_cached (hr : r.Blind) (hcons : settings.Consistent named)
    (hall : ∀ file src, settings.Has file src → named.Covers file src)
    (hcovers : named.Covers path src) (hsrc : ∀ data, settings.Has path data → data = src)
    (hc : r.Valid settings named c) :
    (Job.source path src).outcome r settings (some c) = (Job.source path src).outcome r settings none ∧
      r.Valid settings named ((Job.source path src).cacheAfter r settings c) := by
  have hshared : Template.Shared (Template.lowered settings) :=
    fun _ _ _ hdeclared hnodes => Template.lowered_agree hdeclared hnodes
  obtain ⟨hout, c', hc', hvalid⟩ := Template.parse_bind_cached hshared hr hcons hall hcovers hsrc
    (w := { cache := some c }) (v := {}) ⟨rfl, rfl⟩ ⟨c, rfl, hc⟩ rfl
  refine ⟨hout, ?_⟩
  show r.Valid settings named
    (((Template.parse r settings path src >>= Template.lowered settings).after _).cache.getD c)
  rw [hc']
  exact hvalid

theorem Job.run_file (h : Template.readSource settings path = .ok src) :
    (Job.file path).run r settings = (Job.source path src).run r settings := by
  simp only [run, Template.parseFile, h]

theorem Template.has_of_readSource (h : readSource settings path = .ok src) : settings.Has path src := by
  unfold readSource at h
  cases hfiles : settings.files with
  | none =>
    rw [hfiles] at h
    cases h
  | some fs =>
    simp only [hfiles] at h
    split at h
    · cases h
    · cases hread : fs.read path with
      | error e => simp [hread] at h
      | ok data =>
        simp only [hread, Except.ok.injEq] at h
        exact ⟨fs, hfiles, h ▸ hread⟩

/-- A compilation has the same outcome with a cache and without one, and the cache stays right. -/
theorem Job.outcome_cached (hr : r.Blind) (hcons : settings.Consistent named)
    (hall : ∀ file src, settings.Has file src → named.Covers file src) {job : Job}
    (hfaithful : job.Faithful settings)
    (hcovers : ∀ path src, job = .source path src → named.Covers path src)
    (hc : r.Valid settings named c) : job.outcome r settings (some c) = job.outcome r settings none ∧
      r.Valid settings named (job.cacheAfter r settings c) := by
  cases job with
  | source path src => exact compile_cached hr hcons hall (hcovers path src rfl) hfaithful hc
  | file path =>
    cases hread : Template.readSource settings path with
    | error e =>
      have hrun : (Job.file path).run r settings = throw e := by
        simp only [run, Template.parseFile, hread]
        rfl
      simp only [outcome, cacheAfter, hrun]
      exact ⟨rfl, hc⟩
    | ok src =>
      have hhas := Template.has_of_readSource hread
      simp only [outcome, cacheAfter, run_file hread]
      exact compile_cached hr hcons hall (hall path src hhas) (fun _ h => hhas.unique h) hc

end Compile

/-! ## Files that do not change -/

/-- What is named in the files and in the sources that are compiled. -/
def Job.named (settings : Settings) (jobs : List Job) : Named := fun kind file name =>
  ∃ src, (settings.Has file src ∨ .source file src ∈ jobs) ∧
    Directive.Names [kind.directive] (Token.ofSource src) name

section Shared
variable {r : Registry} {settings : Settings} {named : Named}

/-- What a name leads to is decided by the paths it is looked up at. -/
theorem Settings.Leads.of_resolve {file name file' name' found data : Text} {p : Text × Text}
    (h : settings.Leads file name found data) (hresolve : Path.resolve? file name = some p)
    (hvalid : Path.isValidName name' = true) (hresolve' : Path.resolve? file' name' = some p) :
    settings.Leads file' name' found data := by
  have hname := (Settings.leads_cases h).1
  simp only [Leads, Content.read, hname, hvalid, hresolve, hresolve'] at h ⊢
  exact h

/-- The paths at which contents of a kind are looked up that sources name: first, and then. -/
def lookups (kind : ContentKind) (sources : List (Text × Text)) : List (Text × Text) :=
  sources.flatMap fun (file, src) =>
    (Directive.namesIn [kind.directive] src).filterMap (Path.resolve? file)

/-- The sources of files and those that are given to compilations. -/
def Job.sources (fs : Files) (jobs : List Job) : List (Text × Text) :=
  fs.entries ++ jobs.filterMap fun job =>
    match job with
    | .file _ => none
    | .source path src => some (path, src)

/-- It is enough that the path of the first lookup decides that of the next one. -/
theorem Job.consistent_of_lookups {fs : Files} (hfs : settings.files = some fs) {jobs : List Job}
    (h : ∀ kind, ∀ p ∈ lookups kind (sources fs jobs), ∀ p' ∈ lookups kind (sources fs jobs),
      p.1 = p'.1 → p = p') : settings.Consistent (Job.named settings jobs) := by
  have hmem {kind : ContentKind} {file name : Text} {p : Text × Text}
      (hname : Job.named settings jobs kind file name) (hresolve : Path.resolve? file name = some p) :
      p ∈ lookups kind (sources fs jobs) := by
    obtain ⟨src, hsrc, hname⟩ := hname
    refine List.mem_flatMap.mpr ⟨(file, src), List.mem_append.mpr ?_,
      List.mem_filterMap.mpr ⟨name, hname.mem_namesIn, hresolve⟩⟩
    rcases hsrc with hsrc | hsrc
    · have hasks : Asks src name := hname.reads
      obtain ⟨fs', hfs', hentry⟩ := hsrc.mem_entries hasks.ne_nil
      cases hfs.symm.trans hfs'
      exact .inl hentry
    · exact .inr (List.mem_filterMap.mpr ⟨_, hsrc, rfl⟩)
  intro kind file name file' name' path fallback fallback' hname hname' hvalid hresolve hresolve' found
    data hleads
  have hsame := h kind _ (hmem hname hresolve) _ (hmem hname' hresolve') rfl
  exact hleads.of_resolve (hresolve.trans (congrArg some hsame)) hvalid hresolve'

theorem Job.outcomes_of_valid (hr : r.Blind) (hcons : settings.Consistent named)
    (hall : ∀ file src, settings.Has file src → named.Covers file src) (jobs : List Job)
    (hfaithful : ∀ job ∈ jobs, job.Faithful settings)
    (hcovers : ∀ path src, .source path src ∈ jobs → named.Covers path src) {c : Cache}
    (hc : r.Valid settings named c) :
    outcomes r settings jobs c = jobs.map (outcome r settings none) := by
  induction jobs generalizing c with
  | nil => rfl
  | cons job jobs ih =>
    obtain ⟨hout, hvalid⟩ := outcome_cached hr hcons hall (hfaithful job (by simp))
      (fun path src hjob => hcovers path src (by simp [hjob])) hc
    rw [outcomes, List.map_cons, hout]
    rw [ih (fun j hj => hfaithful j (by simp [hj])) (fun _ _ hj => hcovers _ _ (by simp [hj])) hvalid]

/-- Compilations that share a cache return what each of them returns without one, whatever their order is, if
names that are looked up at the same path first lead to the same content. -/
theorem Job.outcomes_shared (hr : r.Blind) (jobs : List Job)
    (hfaithful : ∀ job ∈ jobs, job.Faithful settings)
    (hcons : settings.Consistent (Job.named settings jobs)) :
    outcomes r settings jobs {} = jobs.map (outcome r settings none) := by
  refine outcomes_of_valid hr hcons ?_ jobs hfaithful ?_ Registry.valid_empty
  · intro file src hsrc kind name hname
    exact ⟨src, .inl hsrc, hname⟩
  · intro path src hsrc kind name hname
    exact ⟨src, .inr hsrc, hname⟩

end Shared

/-- Two templates that take a content from the directory above theirs, one of them in the other. -/
def Job.sampleSettings : Settings where
  files := some ⟨[(utf8 "p", utf8 "X"), (utf8 "a/x", utf8 "@htmlfile \"p\""),
    (utf8 "a/y", utf8 "@rusthtmlfile \"/a/x\" @htmlfile \"p\"")], false⟩
  markdown := .ok

/-- They are compiled in turn, and then a page that is not among the files. -/
def Job.sampleJobs : List Job :=
  [.file (utf8 "a/y"), .file (utf8 "a/x"), .source (utf8 "b") (utf8 "@rusthtmlfile \"a/x\"")]

theorem Job.outcomes_shared_sample : outcomes .standard sampleSettings sampleJobs {} =
    sampleJobs.map (outcome .standard sampleSettings none) := by
  refine outcomes_shared Registry.standard_blind sampleJobs ?_ (consistent_of_lookups rfl ?_)
  · intro job hjob
    simp only [sampleJobs, List.mem_cons, List.not_mem_nil, or_false] at hjob
    rcases hjob with rfl | rfl | rfl
    · trivial
    · trivial
    · rintro data ⟨fs, hfs, hread⟩
      cases hfs
      cases hread
  · intro kind
    cases kind <;> decide +kernel

/-! ## Files that change -/

namespace Files
variable {fs : Files} {path data p content : Text}

theorem get?_put_of_ne (h : p ≠ path) : (fs.put path data).get? p = fs.get? p := by
  have hne : path ≠ p := fun he => h he.symm
  unfold put get?
  split
  · rw [List.find?_map, Option.map_map]
    induction fs.entries with
    | nil => rfl
    | cons e es ih =>
      by_cases he : e.1 = path
      · simp only [List.find?_cons, Function.comp_apply, he, if_true, hne, decide_false]
        exact ih
      · by_cases hp : e.1 = p
        · simp [hp, h]
        · simpa [List.find?_cons, he, hp] using ih
  · simp [List.find?_append, hne]

theorem isDirectory_put (h : fs.isDirectory p = true) : (fs.put path data).isDirectory p = true := by
  unfold isDirectory put at *
  rcases Bool.or_eq_true_iff.mp h with h | h
  · simp only [h, Bool.true_or]
  · obtain ⟨e, he, hp⟩ := List.any_eq_true.mp h
    refine Bool.or_eq_true_iff.mpr (.inr (List.any_eq_true.mpr ?_))
    split
    · refine ⟨_, List.mem_map.mpr ⟨e, he, rfl⟩, ?_⟩
      split
      · rename_i hpath
        exact hpath ▸ hp
      · exact hp
    · exact ⟨e, List.mem_append_left _ he, hp⟩

theorem onDisk_put : (fs.put path data).onDisk = fs.onDisk := by
  unfold put
  split <;> rfl

theorem admits_put : (fs.put path data).admits p = fs.admits p := by
  simp only [admits, onDisk_put]

theorem open?_put_of_ne (h : p ≠ path) {o : Opened} (hopen : fs.open? p = .ok o) :
    (fs.put path data).open? p = .ok o := by
  simp only [open?, admits_put, get?_put_of_ne h] at hopen ⊢
  by_cases hadmits : (!fs.admits p) = true
  · rw [if_pos hadmits] at hopen
    cases hopen
  rw [if_neg hadmits] at hopen ⊢
  by_cases hhere : p = Path.here
  · rwa [if_pos hhere] at hopen ⊢
  rw [if_neg hhere] at hopen ⊢
  cases hget : fs.get? p with
  | some d => rwa [hget] at hopen
  | none =>
    rw [hget] at hopen
    by_cases hdir : fs.isDirectory p = true
    · simpa only [hdir, isDirectory_put hdir, if_true] using hopen
    · simp only [hdir] at hopen
      cases hopen

/-- A file that is written changes nothing that could be read elsewhere. -/
theorem read_put_of_ne (h : p ≠ path) (hread : fs.read p = .ok content) :
    (fs.put path data).read p = .ok content := by
  cases hopen : fs.open? p with
  | ok o => simpa only [read, onDisk_put, admits_put, hopen, open?_put_of_ne h hopen] using hread
  | error e =>
    simp only [read, hopen] at hread
    split at hread <;> cases hread

end Files

namespace Settings

/-- The settings with other files. -/
def on (settings : Settings) (fs : Files) : Settings := { settings with files := some fs }

/-- Every content that a file names while it is parsed is named by an absolute path. -/
def Rooted (settings : Settings) : Prop :=
  ∀ file src name, settings.Has file src → Asks src name → Path.isRooted name = true

/-- The paths from which a file can be reached whose content is gone or another one now. -/
def outdated (settings settings' : Settings) : Set Text :=
  { path | ∃ p data, settings.Reaches path p ∧ settings.Has p data ∧ ¬ settings'.Has p data }

variable {settings : Settings} {fs : Files}

/-- After a file is written, the paths are out of date that reach it. -/
theorem reaches_of_outdated {path data p : Text}
    (h : p ∈ (settings.on fs).outdated (settings.on (fs.put path data))) :
    (settings.on fs).Reaches p path := by
  obtain ⟨changed, content, hreach, ⟨fs', hfs, hread⟩, hgone⟩ := h
  cases hfs
  by_cases hpath : changed = path
  · exact hpath ▸ hreach
  · exact absurd ⟨_, rfl, Files.read_put_of_ne hpath hread⟩ hgone

/-- Only files reach other files. -/
theorem Reaches.mem_paths {path p : Text} (h : settings.Reaches p path) :
    p = path ∨ p ∈ settings.paths := by
  rcases Relation.ReflTransGen.cases_head h with h | ⟨_, ⟨src, _, _, hsrc, hasks, _⟩, _⟩
  · exact .inl h
  · exact .inr (hsrc.mem_paths hasks.ne_nil)

theorem rooted_of_entries (h : ∀ e ∈ fs.entries,
    ∀ name ∈ Directive.namesIn Directive.readingNames e.2, Path.isRooted name = true) :
    (settings.on fs).Rooted := by
  intro file src name hsrc hasks
  obtain ⟨fs', hfs, hentry⟩ := hsrc.mem_entries hasks.ne_nil
  cases hfs
  exact h _ hentry name hasks.mem_namesIn

end Settings

/-- A step of a session: a file is written or removed, the fragments of a path are forgotten, or the template
at a path is compiled. -/
inductive Step where
  | write (path data : Text)
  | remove (path : Text)
  | delete (path : Text)
  | compile (path : Text)

namespace Step

/-- The files after a step. -/
def files (fs : Files) : Step → Files
  | .write path data => fs.put path data
  | .remove path => fs.erase path
  | .delete _ | .compile _ => fs

/-- The paths whose fragments may be out of date after a step. -/
def stale (settings : Settings) (fs : Files) (before : Set Text) : Step → Set Text
  | .delete path => before \ {path}
  | .compile _ => before
  | step => before ∪ (settings.on fs).outdated (settings.on (step.files fs))

/-- The cache after a step. -/
def cacheAfter (r : Registry) (settings : Settings) (fs : Files) (c : Cache) : Step → Cache
  | .delete path => c.erase path
  | .compile path => (Job.file path).cacheAfter r (settings.on fs) c
  | .write .. | .remove _ => c

/-- What a step returns, if it is a compilation. -/
def outcome? (r : Registry) (settings : Settings) (fs : Files) (c : Cache) :
    Step → Option (Except Error (Declarations × Text))
  | .compile path => some ((Job.file path).outcome r (settings.on fs) (some c))
  | .write .. | .remove _ | .delete _ => none

/-- What the compilations of a session return: with one cache for all of them, or an empty one for each. -/
def outcomes (r : Registry) (settings : Settings) (shared : Bool) :
    List Step → Files → Cache → List (Except Error (Declarations × Text))
  | [], _, _ => []
  | step :: steps, fs, c =>
    let c := if shared then c else {}
    (step.outcome? r settings fs c).toList ++
      outcomes r settings shared steps (step.files fs) (step.cacheAfter r settings fs c)

/-- All names of contents are absolute, and when a template is compiled, the fragments of all paths that may
be out of date have been forgotten. -/
def Evicting (settings : Settings) : List Step → Files → Set Text → Prop
  | [], _, _ => True
  | step :: steps, fs, before =>
    (settings.on fs).Rooted ∧ (∀ path, step = .compile path → before = ∅) ∧
      Evicting settings steps (step.files fs) (step.stale settings fs before)

end Step

/-- Absolute names. -/
def Named.rooted : Named := fun _ _ name => Path.isRooted name = true

section Evicted
variable {r : Registry} {settings settings' : Settings}

theorem resolve?_rooted {file name path fallback : Text} (h : Path.isRooted name = true)
    (hresolve : Path.resolve? file name = some (path, fallback)) :
    path = (Path.clean name).tail ∧ fallback = path := by
  simp only [Path.resolve?, h, if_true, Option.some.injEq, Prod.mk.injEq] at hresolve
  exact ⟨hresolve.1.symm, hresolve.2.symm.trans hresolve.1⟩

/-- An absolute name leads to the one path it is looked up at. -/
theorem Settings.leads_rooted {file name path found data : Text} {fallback : Text}
    (h : Path.isRooted name = true) (hresolve : Path.resolve? file name = some (path, fallback))
    (hleads : settings.Leads file name found data) : found = path := by
  obtain ⟨-, -, path', fallback', hresolve', hfound⟩ := leads_cases hleads
  rw [hresolve] at hresolve'
  cases hresolve'
  rcases hfound with rfl | rfl
  · rfl
  · exact (resolve?_rooted h hresolve).2

theorem Settings.consistent_rooted : settings.Consistent Named.rooted := by
  intro kind file name file' name' path fallback fallback' hname _ hvalid hresolve hresolve' found data
    hleads
  obtain rfl := leads_rooted hname hresolve hleads
  exact hleads.has.leads hvalid hresolve'

theorem Settings.Rooted.covers (h : settings.Rooted) {file src : Text} (hsrc : settings.Has file src) :
    Named.rooted.Covers file src :=
  fun _ name hname => h file src name hsrc hname.reads

/-- What a path reaches stays the same unless the path is out of date. -/
theorem Settings.keeps_of_not_outdated (h : settings.Rooted) {path : Text}
    (hpath : path ∉ settings.outdated settings') : settings.Keeps settings' path := by
  intro file src name hreach hsrc hasks found data hleads
  obtain ⟨hvalid, hfound, resolved, fallback, hresolve, -⟩ := leads_cases hleads
  obtain rfl := leads_rooted (h file src name hsrc hasks) hresolve hleads
  have hincl : settings.Includes file found := ⟨src, name, data, hsrc, hasks, hleads⟩
  have hfound' : settings'.Has found data := by
    by_contra hgone
    exact hpath ⟨found, data, hreach.tail hincl, hfound, hgone⟩
  exact hfound'.leads hvalid hresolve

theorem Registry.Fits.keep (hr : r.Blind)
    (hsettings : settings' = { settings with files := settings'.files }) (h : settings.Rooted)
    {kind : ContentKind} {path : Text} {f : Fragment} (hpath : path ∉ settings.outdated settings')
    (hf : r.Fits settings Named.rooted kind path f) : r.Fits settings' Named.rooted kind path f := by
  intro file name fallback hname hvalid hresolve
  obtain ⟨found, data, hleads, hmeans⟩ := hf file name fallback hname hvalid hresolve
  obtain rfl := Settings.leads_rooted hname hresolve hleads
  have hhas (data : Text) (hdata : settings.Has found data) : settings'.Has found data := by
    by_contra hgone
    exact hpath ⟨found, data, .refl, hdata, hgone⟩
  exact ⟨found, data, (hhas data hleads.has).leads hvalid hresolve,
    hmeans.keep hr hsettings (Settings.keeps_of_not_outdated h hpath) hhas⟩

/-- The fragments of the cache fit their keys, as far as these are not out of date. -/
def Registry.Fresh (r : Registry) (settings : Settings) (stale : Set Text) (c : Cache) : Prop :=
  ∀ kind path f, c.get? (Cache.key kind path) = some f → path ∉ stale →
    r.Fits settings Named.rooted kind path f

theorem Registry.Fresh.valid {c : Cache} (h : r.Fresh settings ∅ c) : r.Valid settings Named.rooted c :=
  fun kind path f hget => h kind path f hget (Set.notMem_empty path)

/-- With absolute names a compilation has the outcome of an empty cache, and the cache stays right. -/
theorem Job.outcome_fresh (hr : r.Blind) (h : settings.Rooted) {c : Cache} (path : Text)
    (hc : r.Valid settings Named.rooted c) :
    (Job.file path).outcome r settings (some c) = (Job.file path).outcome r settings (some {}) ∧
      r.Valid settings Named.rooted ((Job.file path).cacheAfter r settings c) := by
  have hcached {c : Cache} (hc : r.Valid settings Named.rooted c) :=
    outcome_cached hr Settings.consistent_rooted (fun _ _ => h.covers)
      (show (Job.file path).Faithful settings from trivial) (fun _ _ hjob => by cases hjob) hc
  exact ⟨(hcached hc).1.trans (hcached Registry.valid_empty).1.symm, (hcached hc).2⟩

namespace Step

/-- A step keeps right what is not out of date after it. -/
theorem fresh_step (hr : r.Blind) {fs : Files} {stale : Set Text} {c : Cache} (step : Step)
    (h : (settings.on fs).Rooted) (hcompile : ∀ path, step = .compile path → stale = ∅)
    (hc : r.Fresh (settings.on fs) stale c) :
    r.Fresh (settings.on (step.files fs)) (step.stale settings fs stale)
      (step.cacheAfter r settings fs c) := by
  have hchange (fs' : Files) : r.Fresh (settings.on fs')
      (stale ∪ (settings.on fs).outdated (settings.on fs')) c := by
    intro kind path f hget hpath
    obtain ⟨hstale, houtdated⟩ := not_or.mp hpath
    exact (hc kind path f hget hstale).keep hr rfl h houtdated
  cases step with
  | write path data => exact hchange _
  | remove path => exact hchange _
  | delete path =>
    intro kind path' f hget hpath
    simp only [cacheAfter, Cache.get?_erase] at hget
    split at hget
    · cases hget
    · rename_i hne
      exact hc kind path' f hget fun hstale => hpath ⟨hstale, hne⟩
  | compile path =>
    -- nothing is out of date now, so the cache may be used, and what is added is right
    obtain rfl := hcompile path rfl
    intro kind path' f hget _
    exact (Job.outcome_fresh hr h path hc.valid).2 kind path' f hget

theorem outcomes_of_fresh (hr : r.Blind) (steps : List Step) {fs : Files} {stale : Set Text}
    {c c' : Cache} (h : Evicting settings steps fs stale) (hc : r.Fresh (settings.on fs) stale c) :
    outcomes r settings true steps fs c = outcomes r settings false steps fs c' := by
  induction steps generalizing fs stale c c' with
  | nil => rfl
  | cons step steps ih =>
    obtain ⟨hrooted, hcompile, hsteps⟩ := h
    -- the caches of the second session are thrown away before each step
    have hnext := @ih _ _ _ (step.cacheAfter r settings fs {}) hsteps
      (fresh_step hr step hrooted hcompile hc)
    simp only [outcomes, if_true, Bool.false_eq_true, if_false]
    rw [hnext]
    cases step with
    | compile path =>
      obtain rfl := hcompile path rfl
      simp only [outcome?, (Job.outcome_fresh hr hrooted path hc.valid).1]
    | write | remove | delete => rfl

/-- In a session whose names of contents are absolute, and in which the fragments of every path that reaches
a changed file are forgotten before the next compilation, the cache changes no outcome. -/
theorem outcomes_evicted (hr : r.Blind) (steps : List Step) (fs : Files)
    (h : Evicting settings steps fs ∅) :
    outcomes r settings true steps fs {} = outcomes r settings false steps fs {} := by
  refine outcomes_of_fresh hr steps h ?_
  intro kind path f hget
  cases hget

/-- A page with a template in it that writes a file. -/
def sampleFiles : Files where
  entries := [(utf8 "a", utf8 "@rusthtmlfile \"/b\""), (utf8 "b", utf8 "@htmlfile \"/c\""),
    (utf8 "c", utf8 "old")]

/-- The file is written between two compilations of the page. -/
def sampleSteps : List Step :=
  [.compile (utf8 "a"), .write (utf8 "c") (utf8 "new"), .delete (utf8 "c"), .delete (utf8 "b"),
    .delete (utf8 "a"), .compile (utf8 "a")]

theorem outcomes_evicted_sample : outcomes .standard { markdown := .ok } true sampleSteps sampleFiles {} =
    outcomes .standard { markdown := .ok } false sampleSteps sampleFiles {} := by
  have hrooted : (Settings.on { markdown := .ok } sampleFiles).Rooted :=
    Settings.rooted_of_entries (by decide +kernel)
  have hrooted' : (Settings.on { markdown := .ok } (sampleFiles.put (utf8 "c") (utf8 "new"))).Rooted :=
    Settings.rooted_of_entries (by decide +kernel)
  refine outcomes_evicted Registry.standard_blind sampleSteps sampleFiles ?_
  refine ⟨hrooted, fun _ _ => rfl, hrooted, by simp, hrooted', by simp, hrooted', by simp, hrooted',
    by simp, hrooted', fun _ _ => ?_, trivial⟩
  refine Set.eq_empty_iff_forall_notMem.mpr ?_
  rintro p ⟨⟨⟨h | h, hc⟩, hb⟩, ha⟩
  · cases h
  · rcases (Settings.reaches_of_outdated h).mem_paths with rfl | h
    · exact hc rfl
    · have hp : p = utf8 "a" ∨ p = utf8 "b" ∨ p = utf8 "c" := by
        simpa [Settings.paths, Settings.on, files, sampleFiles] using h
      rcases hp with rfl | rfl | rfl
      · exact ha rfl
      · exact hb rfl
      · exact hc rfl

end Step
end Evicted
end Atmark
