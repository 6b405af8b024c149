import Mathlib.Data.List.Dedup
import Mathlib.Data.List.Infix
import Atmark.Proofs.Cache.Again
import Atmark.Proofs.Directive.Contract
import Atmark.Proofs.Token.Positions

/-! Files that include each other. A template is included by the chain of the files above it, and no chain
repeats a file, so a chain is no longer than the list of what can be opened (`Included.length_le`). A file
that is parsed keeps its contract if each template that it names and that is not above it is parsed to
something that the contract accepts (`parseSource_meets`, `embeds_of`). -/
namespace Atmark
open Node ParseM

/-! ## What can be opened -/

namespace Files

/-- The paths that can be opened: those of files and directories. Every directory is a beginning of the path
of a file, or the root. -/
def openable (fs : Files) : List Text :=
  ((Path.here :: fs.entries.flatMap (·.1.inits)).filter fun p => (fs.open? p).isOk).dedup

theorem mem_openable {fs : Files} {path : Text} :
    path ∈ fs.openable ↔ ∃ o, fs.open? path = .ok o := by
  have hok : (fs.open? path).isOk = true ↔ ∃ o, fs.open? path = .ok o := by
    cases fs.open? path <;> simp [Except.isOk, Except.toBool]
  rw [openable, List.mem_dedup, List.mem_filter, hok, and_iff_right_iff_imp]
  rintro ⟨o, ho⟩
  unfold open? at ho
  dsimp only at ho
  split at ho
  · cases ho
  split at ho
  · rename_i hhere
    simp [hhere]
  rename_i hhere
  split at ho
  · rename_i data hget
    obtain ⟨e, he, -⟩ := Option.map_eq_some_iff.mp hget
    have hpath : e.1 = path := by simpa using List.find?_some he
    refine List.mem_cons_of_mem _ (List.mem_flatMap.mpr ⟨e, List.mem_of_find?_eq_some he, ?_⟩)
    rw [hpath]
    exact List.mem_inits _ _ |>.mpr List.prefix_rfl
  · split at ho
    · rename_i hdir
      have hany : fs.entries.any (Text.startsWith (path ++ [Path.slash]) ·.1) = true := by
        simpa [isDirectory, hhere] using hdir
      obtain ⟨e, he, hstarts⟩ := List.any_eq_true.mp hany
      refine List.mem_cons_of_mem _ (List.mem_flatMap.mpr ⟨e, he, ?_⟩)
      obtain ⟨rest, hrest⟩ := Option.isSome_iff_exists.mp hstarts
      rw [Text.eq_append_of_strip? hrest, List.append_assoc]
      exact (List.mem_inits _ _).mpr (List.prefix_append _ _)
    · cases ho

theorem mem_openable_of_read {fs : Files} {path data : Text} (h : fs.read path = .ok data) :
    path ∈ fs.openable := by
  refine mem_openable.mpr ?_
  unfold read at h
  split at h
  · cases h
  · cases ho : fs.open? path with
    | ok o => exact ⟨o, rfl⟩
    | error e => rw [ho] at h; cases h

end Files

/-- The paths of the files of a compilation that can be opened. -/
def Settings.openable (settings : Settings) : List Text := (settings.files.map Files.openable).getD []

theorem Settings.Has.mem_openable {settings : Settings} {path data : Text} (h : settings.Has path data) :
    path ∈ settings.openable := by
  obtain ⟨fs, hfs, hread⟩ := h
  simpa [openable, hfs] using Files.mem_openable_of_read hread

/-- No file has an empty path. -/
theorem Settings.Has.path_ne_nil {settings : Settings} {path data : Text} (h : settings.Has path data) :
    path ≠ [] := by
  rintro rfl
  obtain ⟨fs, -, hread⟩ := h
  have hpath : Path.isFilePath [] = false := by decide
  have hadmits : fs.admits [] = false := by simp [Files.admits, hpath]
  unfold Files.read Files.open? at hread
  cases hdisk : fs.onDisk <;> simp [hadmits, hdisk] at hread

/-! ## Chains -/

/-- While the template at a path is parsed, a file is parsed below some files, the outermost first. Each of
them names the next one, and none is there twice. -/
inductive Included (settings : Settings) (path src : Text) : List Text → Text → Text → Prop
  | root : Included settings path src [] path src
  | next {includers : List Text} {file data name file' data' : Text} :
      Included settings path src includers file data →
      Directive.Names Directive.templateNames (Token.ofSource data) name →
      settings.Leads file name file' data' → file' ∉ includers ++ [file] →
      Included settings path src (includers ++ [file]) file' data'

namespace Included
variable {settings : Settings} {path src : Text} {includers : List Text} {file data : Text}

theorem ne_nil_of_names {name : Text}
    (h : Directive.Names Directive.templateNames (Token.ofSource data) name) : data ≠ [] := by
  obtain ⟨id, ts, hp, hid, hname⟩ := h
  refine Asks.ne_nil ⟨id, ts, hp, ?_, hname⟩
  simp only [Directive.templateNames, List.mem_cons, List.not_mem_nil, or_false] at hid
  rcases hid with hid | hid <;> simp [hid, Directive.readingNames]

theorem nodup (h : Included settings path src includers file data) : (includers ++ [file]).Nodup := by
  induction h with
  | root => simp
  | next _ _ _ hnew ih =>
    refine List.nodup_append.mpr ⟨ih, by simp, ?_⟩
    rintro x hx y hy rfl
    exact hnew (List.mem_singleton.mp hy ▸ hx)

/-- All files of a chain but the first one were opened. -/
theorem exists_cons (h : Included settings path src includers file data) :
    ∃ rest, includers ++ [file] = path :: rest ∧ rest ⊆ settings.openable := by
  induction h with
  | root => exact ⟨[], rfl, by simp⟩
  | next _ _ hleads _ ih =>
    obtain ⟨rest, hrest, hsub⟩ := ih
    refine ⟨rest ++ [_], by rw [hrest]; rfl, ?_⟩
    exact List.append_subset.mpr ⟨hsub, by simpa using hleads.has.mem_openable⟩

/-- Below the first file there is no more than what can be opened. -/
theorem length_le (h : Included settings path src includers file data) :
    includers.length ≤ settings.openable.length := by
  obtain ⟨rest, hrest, hsub⟩ := h.exists_cons
  have hnodup := h.nodup
  rw [hrest] at hnodup
  have hlength := congrArg List.length hrest
  have hle := ((List.nodup_cons.mp hnodup).2.subperm hsub).length_le
  simp only [List.length_append, List.length_cons, List.length_nil] at hlength
  omega

/-- A file that includes another one is not empty, so it is a file and no directory. -/
theorem subset_paths (h : Included settings path src includers file data) (hdata : data ≠ []) :
    ∃ rest, includers ++ [file] = path :: rest ∧ rest ⊆ settings.paths := by
  induction h with
  | root => exact ⟨[], rfl, by simp⟩
  | next _ hnames hleads _ ih =>
    obtain ⟨rest, hrest, hsub⟩ := ih (ne_nil_of_names hnames)
    refine ⟨rest ++ [_], by rw [hrest]; rfl, ?_⟩
    exact List.append_subset.mpr ⟨hsub, by simpa using hleads.has.mem_paths hdata⟩

/-- Below the first file there is no more than the files and one directory. -/
theorem length_le_paths (h : Included settings path src includers file data) :
    includers.length ≤ settings.paths.length + 1 := by
  cases h with
  | root => simp
  | next h hnames _ _ =>
    obtain ⟨rest, hrest, hsub⟩ := h.subset_paths (ne_nil_of_names hnames)
    have hnodup := h.nodup
    rw [hrest] at hnodup ⊢
    have hle := ((List.nodup_cons.mp hnodup).2.subperm hsub).length_le
    simpa using hle

/-- The bound that templates are parsed with is never met. -/
theorem length_lt_includeBound (h : Included settings path src includers file data) :
    includers.length < Template.includeBound settings := by
  have hle := h.length_le_paths
  cases hfiles : settings.files <;> simp [Template.includeBound, Settings.paths, hfiles] at hle ⊢ <;> omega

end Included

/-- Every token of a source has a position. -/
theorem Token.Placed.exists_eq {src : Text} {pos : Option Position}
    (h : Placed (ofSource src) pos) : ∃ p, pos = some p := by
  obtain ⟨t, ht, rfl⟩ := h
  have hspanned := lex_spanned src
  unfold ofSource at ht
  cases hl : lex src with
  | ok p =>
    rw [hl] at ht hspanned
    obtain ⟨p, hp, -⟩ := hspanned t ht
    exact ⟨p, hp⟩
  | error e =>
    rw [hl] at ht
    cases ht with
    | here ht => cases ht
    | within ht => cases ht

/-! ## A file and the templates that it includes -/

namespace Contract
variable {C : Contract} {r : Registry}

/-- A template that is refused because it is above its file, or parsed to what the contract accepts. -/
theorem embeds_of {n : Nat}
    (hcycle : ∀ {name : Text} {pos : Option Position} {file data : Text},
      Token.Placed C.tokens pos → Directive.Names Directive.templateNames C.tokens name →
      C.settings.Leads C.path name file data → file ∈ C.includers ++ [C.path] →
      C.error (.at? pos (.cycle ((C.includers ++ [C.path]).dropWhile (· ≠ file) ++ [file]))))
    (hparse : ∀ {name file data : Text}, Directive.Names Directive.templateNames C.tokens name →
      C.settings.Leads C.path name file data → file ∉ C.includers ++ [C.path] →
      ∀ s : State, s.path = C.path → C.inv s →
      match r.parseSource C.settings n (C.includers ++ [C.path]) file data s.world with
      | .ok (ns, d) w => Postpone C.later ns ∧
          C.pending (Registry.fragmentOf ns d) { s with world := w }
      | .error e _ => C.error e) :
    C.Embeds (r.embedIn C.settings n C.includers C.path) := by
  intro t _ hembed name pos file data hpos hnames hleads ts s hs
  have hchain : s.includers ++ [s.path] = C.includers ++ [C.path] := by
    rw [hs.1.includers, hs.1.path]
  by_cases hmem : file ∈ C.includers ++ [C.path]
  · rw [Pairing.embedTemplate_cycle t pos data (hchain ▸ hmem), hchain]
    exact hcycle hpos hnames hleads hmem
  · rw [Pairing.embedTemplate_new (hchain ▸ hmem), hembed]
    refine Meets.bind (note_meets (by decide) _) (fun _ => ?_) s hs
    intro s hs
    have hinner := hparse hnames hleads hmem s hs.1.path hs.1.inv
    simp only [Bind.bind, EStateM.bind, Registry.embedIn, ofWorld]
    cases hp : r.parseSource C.settings n (C.includers ++ [C.path]) file data s.world with
    | error e w =>
      rw [hp] at hinner
      exact hinner
    | ok out w =>
      rw [hp] at hinner
      exact ⟨hinner.1, ⟨hs.1.path, hs.1.includers, hs.1.part, hs.1.stop, hs.1.sink, hinner.2⟩, hs.2⟩

/-- A file whose tokens are those of the contract is parsed as the contract says, and if that fails the error
is told the path of the file. -/
theorem parseSource_meets (hr : C.Obeys r) (hturns : r.directives.any (·.rereads) = false) {n : Nat}
    {src trailing : Text} {w : World} (hlex : Token.lex src = .ok (C.tokens, trailing))
    (he : C.Embeds (r.embedIn C.settings n C.includers C.path))
    (hinv : C.inv { world := w, path := C.path, includers := C.includers, stream := .ofTokens C.tokens }) :
    match r.parseSource C.settings (n + 1) C.includers C.path src w with
    | .ok (ns, d) w' => Postpone C.later ns ∧ ∃ s, C.inv s ∧ s.declared = d ∧ s.world = w'
    | .error e _ => ∃ e', C.error e' ∧ e = e'.withPath C.path := by
  have hstop : C.tokens ≠ [] → Token.Placed C.tokens (Stream.ofTokens C.tokens).stop := by
    intro hne
    obtain ⟨t, ht⟩ := List.getLast?_isSome.mpr hne |> Option.isSome_iff_exists.mp
    refine ⟨t, .here (List.mem_of_getLast? ht), ?_⟩
    simp [Stream.ofTokens, ht]
  have hlight : Token.weights C.tokens < r.turns w C.tokens := by
    simp [Registry.turns, hturns]
  have hrun : Meets C.error (C.At C.inv C.tokens)
      (r.readTokens C.settings (r.embedIn C.settings n C.includers C.path) (r.turns w C.tokens)
        C.tokens trailing) fun _ s => C.Holds C.inv s := by
    refine (checkStop_meets C.framed).bind fun _ => ?_
    refine (loop_meets hr he _ hlight).bind fun closing => .given fun hc => ?_
    refine from_intro fun us _ _ => ?_
    cases closing with
    | some c => exact .fail (expect_fault (hc c rfl) (by simp))
    | none => exact (emitText_meets C.framed _ _).post fun _ _ hs => hs.1
  have hend := hrun _ ⟨⟨rfl, rfl, .whole, hstop, .nil, hinv⟩, rfl⟩
  rw [Registry.parseSource_lexed r C.settings n C.includers C.path src w hlex]
  unfold WorldM.ofParse
  dsimp only at hend ⊢
  cases hm : r.readTokens C.settings (r.embedIn C.settings n C.includers C.path) (r.turns w C.tokens)
      C.tokens trailing
      { world := w, path := C.path, includers := C.includers, stream := .ofTokens C.tokens } with
  | ok u s =>
    rw [hm] at hend
    exact ⟨hend.sink.reverse, s, hend.inv, rfl, rfl⟩
  | error e s =>
    rw [hm] at hend
    exact ⟨e, hend, rfl⟩

end Contract

/-! ## Samples -/

/-- The step ended with an error that passes a test. -/
def WorldM.failed {α : Type} (p : Error → Bool) : EStateM.Result Error World α → Bool
  | .ok .. => false
  | .error e _ => p e

theorem WorldM.exists_of_failed {α : Type} {p : Error → Bool} {r : EStateM.Result Error World α}
    (h : failed p r = true) : ∃ e w, r = .error e w ∧ p e = true := by
  cases r with
  | ok a w => cases h
  | error e w => exact ⟨e, w, rfl, h⟩

/-- The position and the cause of a fault that is reported in the file. -/
def Error.faultIn? (path : Text) : Error → Option (Position × Fault)
  | .fault p pos cause => if p = path then some (pos, cause) else none
  | _ => none

theorem Error.any_faultIn? {path : Text} {p : Position × Fault → Bool} {e : Error}
    (h : (e.faultIn? path).any p = true) : ∃ pos cause, e = .fault path pos cause ∧ p (pos, cause) = true := by
  cases e with
  | fault path' pos cause =>
    by_cases hpath : path' = path
    · subst hpath
      exact ⟨pos, cause, rfl, by simpa [faultIn?] using h⟩
    · simp [faultIn?, hpath] at h
  | _ => cases h

/-- A template whose parse fails in a known way. -/
structure Template.Failing where
  settings : Settings
  path : Text
  src : Text
  expects : Error → Bool
  fails : WorldM.failed expects (parse .standard settings path src {}) = true

/-- A template that is parsed to what is known. -/
structure Template.Parsing where
  settings : Settings
  path : Text
  src : Text
  expects : Template → Bool
  parses : WorldM.returned expects (parse .standard settings path src {}) = true

end Atmark
