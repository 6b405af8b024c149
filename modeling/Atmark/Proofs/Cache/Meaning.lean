import Mathlib.Data.List.Perm.Subperm
import Mathlib.Logic.Relation
import Atmark.Proofs.Parse.Lockstep

/-! What a cached fragment stands for. A fragment of a path is right if the content at that path gives the
same bare nodes when it is read and, for a template, parsed without a cache below some other file (`Means`).
Files name the contents they include in their tokens, so what a template can depend on is known from the
files alone (`Reaches`), and a chain of includes that repeats no file is no longer than their number
(`Room`). -/
namespace Atmark
open Node

/-! ## Keys -/

namespace Cache

theorem splitKey_key (kind : ContentKind) (path : Text) :
    splitKey (key kind path) = (kind.label, path) := by
  cases kind <;> rfl

theorem key_inj {kind kind' : ContentKind} {path path' : Text} :
    key kind path = key kind' path' ↔ kind = kind' ∧ path = path' := by
  constructor
  · intro h
    have hsplit := congrArg splitKey h
    rw [splitKey_key, splitKey_key] at hsplit
    obtain ⟨hlabel, hpath⟩ := Prod.mk.inj hsplit
    refine ⟨?_, hpath⟩
    cases kind <;> cases kind' <;> first | rfl | exact absurd hlabel (by decide)
  · rintro ⟨rfl, rfl⟩
    rfl

theorem get?_put (c : Cache) (k k' : Text) (f : Fragment) :
    (c.put k f).get? k' = if k' = k then some f else c.get? k' := by
  by_cases h : k' = k
  · simp [get?, put, h]
  · have hne : k ≠ k' := fun he => h he.symm
    simp only [get?, put, h, if_false, List.find?_cons, hne, decide_false, List.find?_filter]
    congr 2
    funext e
    by_cases he : e.1 = k' <;> simp [he, h]

theorem get?_erase_path (c : Cache) (k gone : Text) :
    (c.erase gone).get? k = if (splitKey k).2 = gone then none else c.get? k := by
  have hfind : (c.erase gone).get? k =
      (c.entries.find? fun e => decide ((splitKey k).2 ≠ gone) && decide (e.1 = k)).map (·.2) := by
    simp only [get?, erase, List.find?_filter]
    congr 2
    funext e
    by_cases he : e.1 = k <;> simp [he]
  rw [hfind]
  by_cases h : (splitKey k).2 = gone <;> simp [h, get?]

theorem get?_erase (c : Cache) (kind : ContentKind) (path gone : Text) :
    (c.erase gone).get? (key kind path) = if path = gone then none else c.get? (key kind path) := by
  rw [get?_erase_path, splitKey_key]

end Cache

/-! ## Contents and the names that lead to them -/

namespace Settings

/-- The file at a path can be read and has this content. -/
def Has (settings : Settings) (path data : Text) : Prop :=
  ∃ fs, settings.files = some fs ∧ fs.read path = .ok data

/-- A name in the file `file` leads to a path and its content. -/
def Leads (settings : Settings) (file name path data : Text) : Prop :=
  (Content.read settings.files file name none).1 = .ok (data, path)

/-- The paths of the files. -/
def paths (settings : Settings) : List Text :=
  (settings.files.map (·.entries.map (·.1))).getD []

variable {settings : Settings} {file name path data data' : Text}

theorem Has.unique (h : settings.Has path data) (h' : settings.Has path data') : data' = data := by
  obtain ⟨fs, hfs, hread⟩ := h
  obtain ⟨fs', hfs', hread'⟩ := h'
  rw [hfs] at hfs'
  cases hfs'
  rw [hread] at hread'
  exact (Except.ok.inj hread').symm

/-- Only a directory that reads as an empty file is not one of the files. -/
theorem Has.mem_entries (h : settings.Has path data) (hdata : data ≠ []) :
    ∃ fs, settings.files = some fs ∧ (path, data) ∈ fs.entries := by
  obtain ⟨fs, hfs, hread⟩ := h
  have hopen : fs.open? path = .ok (.file data) := by
    unfold Files.read at hread
    split at hread
    · cases hread
    · split at hread
      · rename_i hopen
        cases hread
        exact hopen
      · split at hread
        · cases hread
        · cases hread
          exact absurd rfl hdata
      · cases hread
  have hget : fs.get? path = some data := by
    unfold Files.open? at hopen
    dsimp only at hopen
    repeat' split at hopen
    all_goals cases hopen
    assumption
  obtain ⟨e, he, rfl⟩ := Option.map_eq_some_iff.mp hget
  obtain rfl : e.1 = path := by simpa using List.find?_some he
  exact ⟨fs, hfs, List.mem_of_find?_eq_some he⟩

theorem Has.mem_paths (h : settings.Has path data) (hdata : data ≠ []) : path ∈ settings.paths := by
  obtain ⟨fs, hfs, hmem⟩ := h.mem_entries hdata
  simpa [paths, hfs] using ⟨data, hmem⟩

/-- What a name leads to does not depend on the place where it is written. -/
theorem leads_iff (pos : Option Position) : settings.Leads file name path data ↔
    (Content.read settings.files file name pos).1 = .ok (data, path) := by
  unfold Leads Content.read
  repeat' split
  all_goals simp

theorem leads_cases (h : settings.Leads file name path data) :
    Path.isValidName name = true ∧ settings.Has path data ∧ ∃ resolved fallback,
      Path.resolve? file name = some (resolved, fallback) ∧ (path = resolved ∨ path = fallback) := by
  unfold Leads Content.read at h
  dsimp only at h
  split at h
  · cases h
  rename_i hvalid
  split at h
  · cases h
  rename_i resolved fallback hresolve
  split at h
  · cases h
  rename_i fs hfs
  refine ⟨by simpa using hvalid, ?_⟩
  split at h
  · rename_i hread
    cases h
    exact ⟨⟨fs, hfs, hread⟩, _, _, hresolve, .inl rfl⟩
  split at h
  · cases h
  split at h
  · rename_i hread
    cases h
    exact ⟨⟨fs, hfs, hread⟩, _, _, hresolve, .inr rfl⟩
  · cases h

theorem Leads.has (h : settings.Leads file name path data) : settings.Has path data :=
  (leads_cases h).2.1

/-- A name leads to the first path it is looked up at, if that can be read. -/
theorem Has.leads (h : settings.Has path data) (hvalid : Path.isValidName name = true)
    {fallback : Text} (hresolve : Path.resolve? file name = some (path, fallback)) :
    settings.Leads file name path data := by
  obtain ⟨fs, hfs, hread⟩ := h
  simp [Leads, Content.read, hvalid, hresolve, hfs, hread]

end Settings

/-! ## The names in a source -/

namespace Token

mutual

/-- The rests of tokens and of the groups in them. -/
def parts : List Token → List (List Token)
  | [] => [[]]
  | t :: ts => (t :: ts) :: (innerParts t ++ parts ts)

/-- The rests of the tokens in a group. -/
def innerParts : Token → List (List Token)
  | .group _ cs => parts cs
  | _ => []

end

theorem self_mem_parts (ts : List Token) : ts ∈ parts ts := by
  cases ts <;> simp [parts]

mutual

theorem mem_parts_step : (all : List Token) → ∀ {t : Token} {ts : List Token}, t :: ts ∈ parts all →
    ts ∈ parts all ∧ ∀ f cs, t = .group f cs → cs ∈ parts all
  | [], t, ts, h => by simp [parts] at h
  | u :: us, t, ts, h => by
    rw [parts] at h ⊢
    rcases List.mem_cons.mp h with h | h
    · cases h
      refine ⟨by simp [self_mem_parts], ?_⟩
      rintro f cs rfl
      simp [innerParts, self_mem_parts]
    · rcases List.mem_append.mp h with h | h
      · obtain ⟨hts, hcs⟩ := mem_innerParts_step u h
        exact ⟨by simp [hts], fun f cs ht => by simp [hcs f cs ht]⟩
      · obtain ⟨hts, hcs⟩ := mem_parts_step us h
        exact ⟨by simp [hts], fun f cs ht => by simp [hcs f cs ht]⟩

theorem mem_innerParts_step : (u : Token) → ∀ {t : Token} {ts : List Token}, t :: ts ∈ innerParts u →
    ts ∈ innerParts u ∧ ∀ f cs, t = .group f cs → cs ∈ innerParts u
  | .group _ us, t, ts, h => by
    rw [innerParts] at h ⊢
    exact mem_parts_step us h
  | .ident _, _, _, h | .literal _, _, _, h | .punct _, _, _, h => by simp [innerParts] at h

end

theorem Part.mem_parts {all ts : List Token} (h : Part all ts) : ts ∈ parts all := by
  induction h with
  | whole => exact self_mem_parts all
  | tail _ ih => exact (mem_parts_step all ih).1
  | inner _ ih => exact (mem_parts_step all ih).2 _ _ rfl

/-- The tokens of a source; none if it has no tokens. -/
def ofSource (src : Text) : List Token :=
  match lex src with
  | .ok (tokens, _) => tokens
  | .error _ => []

end Token

/-- The names that follow one of the directives in a source. -/
def Directive.namesIn (directives : List Text) (src : Text) : List Text :=
  (Token.parts (Token.ofSource src)).filterMap fun ts =>
    match ts with
    | .ident id :: rest => if id.name ∈ directives then pathAfter? rest else none
    | _ => none

theorem Directive.Names.mem_namesIn {directives : List Text} {src name : Text}
    (h : Names directives (Token.ofSource src) name) : name ∈ namesIn directives src := by
  obtain ⟨id, ts, hpart, hid, hpath⟩ := h
  exact List.mem_filterMap.mpr ⟨_, hpart.mem_parts, by simp [hid, hpath]⟩

/-- A source names a content that is read while it is parsed. -/
def Asks (src name : Text) : Prop :=
  Directive.Names Directive.readingNames (Token.ofSource src) name

theorem Asks.ne_nil {src name : Text} (h : Asks src name) : src ≠ [] := by
  rintro rfl
  have hnone : Directive.namesIn Directive.readingNames [] = [] := rfl
  have hname := Directive.Names.mem_namesIn h
  rw [hnone] at hname
  cases hname

namespace Settings

/-- The file at a path includes the file at another one. -/
def Includes (settings : Settings) (file path : Text) : Prop :=
  ∃ src name data, settings.Has file src ∧ Asks src name ∧ settings.Leads file name path data

/-- The file at a path includes the file at another one, or a file that does. Every path reaches itself. -/
def Reaches (settings : Settings) : Text → Text → Prop := Relation.ReflTransGen settings.Includes

/-- Whatever is found while the template at a path is parsed is found with other settings too. -/
def Keeps (settings settings' : Settings) (path : Text) : Prop :=
  ∀ file src name, settings.Reaches path file → settings.Has file src → Asks src name →
    ∀ found data, settings.Leads file name found data → settings'.Leads file name found data

theorem Keeps.refl (settings : Settings) (path : Text) : settings.Keeps settings path :=
  fun _ _ _ _ _ _ _ _ h => h

theorem Keeps.included {settings settings' : Settings} {file path : Text}
    (h : settings.Keeps settings' file) (hincl : settings.Includes file path) :
    settings.Keeps settings' path :=
  fun _ _ _ hreach => h _ _ _ (.head hincl hreach)

/-! ## Chains of includes -/

/-- A chain of includes that repeats no file has room for fewer than `n` more files. -/
def Room (settings : Settings) (n : Nat) (chain : List Text) : Prop :=
  chain.Nodup ∧ ∀ more, (chain ++ more).Nodup → more ⊆ settings.paths → more.length < n

namespace Room
variable {settings : Settings} {n : Nat} {chain : List Text} {path : Text}

theorem exists_eq_succ (h : settings.Room n chain) : ∃ k, n = k + 1 := by
  have hn : 0 < n := h.2 [] (by simpa using h.1) (by simp)
  exact ⟨n - 1, by omega⟩

theorem next (h : settings.Room (n + 1) chain) (hnew : path ∉ chain) (hpath : path ∈ settings.paths) :
    settings.Room n (chain ++ [path]) := by
  constructor
  · refine List.nodup_append.mpr ⟨h.1, by simp, ?_⟩
    rintro x hx y hy rfl
    exact hnew (List.mem_singleton.mp hy ▸ hx)
  · intro more hnodup hsub
    have hmore := h.2 (path :: more) (by simpa using hnodup) (by simp [hpath, hsub])
    simpa using hmore

/-- More files than there are need no more room. -/
theorem of_length (hchain : chain.Nodup) (hn : settings.paths.length < n) : settings.Room n chain := by
  refine ⟨hchain, fun more hnodup hsub => ?_⟩
  have hmore : more.Nodup := (List.nodup_append.mp hnodup).2.1
  exact Nat.lt_of_le_of_lt (List.Nodup.subperm hmore hsub).length_le hn

end Room
end Settings

/-! ## Cycles -/

namespace Error

/-- The error is a cycle of includes that closes at a path. -/
def Closes (e : Error) (path : Text) : Prop :=
  ∃ file pos chain, e = .fault file pos (.cycle (chain ++ [path]))

theorem Closes.withPath {e : Error} {path : Text} (h : e.Closes path) (file : Text) :
    (e.withPath file).Closes path := by
  obtain ⟨file', pos, chain, rfl⟩ := h
  exact ⟨_, pos, chain, rfl⟩

theorem Closes.unique {e : Error} {path path' : Text} (h : e.Closes path) (h' : e.Closes path') :
    path' = path := by
  obtain ⟨_, _, chain, rfl⟩ := h
  obtain ⟨_, _, chain', he⟩ := h'
  simp only [fault.injEq, Fault.cycle.injEq] at he
  exact (List.append_inj' he.2.2 rfl).2 |> List.singleton_inj.mp |>.symm

end Error

/-! ## Fragments -/

namespace Pairing

theorem SameBare.trans {f g k : Fragment} (h : SameBare f g) (h' : SameBare g k) : SameBare f k :=
  Eq.trans h h'

end Pairing

namespace Registry
open Pairing

/-- What a template that was parsed contributes to the one that includes it. -/
def fragmentOf (ns : List Node) (d : Declarations) : Fragment :=
  { nodes := ns, imports := d.imports, injects := d.injects }

/-- Without a cache the template at a path is parsed to the fragment, below a chain of files. -/
def Parses (r : Registry) (settings : Settings) (chain : List Text) (path : Text) (f : Fragment) : Prop :=
  ∃ data n w ns d w', settings.Has path data ∧ w.cache = none ∧ w.budget = none ∧
    r.parseSource settings n chain path data w = .ok (ns, d) w' ∧ SameBare f (fragmentOf ns d)

/-- The fragment is what the content of a kind at a path means to the files that include it. -/
def Means (r : Registry) (settings : Settings) : ContentKind → Text → Fragment → Prop
  | .html, path, f => ∃ data, settings.Has path data ∧ SameBare f { nodes := [.text none data] }
  | .markdown, path, f => ∃ data html, settings.Has path data ∧ settings.markdown data = .ok html ∧
      SameBare f { nodes := [.text none html] }
  -- what may be declared depends on whether some file includes this one, but not on which
  | .template, path, f => ∃ chain, chain ≠ [] ∧ path ∉ chain ∧ r.Parses settings chain path f

end Registry

/-! ## Keys of contents

A fragment is kept under the first path that its name is looked up at, wherever the content was found. It is
right for every file if that path decides what is found. -/

/-- The contents that files name: of a kind, in a file, by a name. -/
abbrev Named := ContentKind → Text → Text → Prop

/-- The contents that are kept in the cache while a source is parsed are among the named ones. -/
def Named.Covers (named : Named) (file src : Text) : Prop :=
  ∀ kind name, Directive.Names [kind.directive] (Token.ofSource src) name → named kind file name

/-- Names that are looked up at the same path first lead to the same content, if to any. -/
def Settings.Consistent (settings : Settings) (named : Named) : Prop :=
  ∀ kind file name file' name' path fallback fallback', named kind file name → named kind file' name' →
    Path.isValidName name' = true → Path.resolve? file name = some (path, fallback) →
    Path.resolve? file' name' = some (path, fallback') → ∀ found data,
    settings.Leads file name found data → settings.Leads file' name' found data

namespace Registry
variable {r : Registry} {settings : Settings} {named : Named}

/-- The fragment is what each name means that is looked up at the path first. -/
def Fits (r : Registry) (settings : Settings) (named : Named) (kind : ContentKind) (path : Text)
    (f : Fragment) : Prop :=
  ∀ file name fallback, named kind file name → Path.isValidName name = true →
    Path.resolve? file name = some (path, fallback) →
    ∃ found data, settings.Leads file name found data ∧ r.Means settings kind found f

/-- Every fragment of the cache fits its key. -/
def Valid (r : Registry) (settings : Settings) (named : Named) (c : Cache) : Prop :=
  ∀ kind path f, c.get? (Cache.key kind path) = some f → r.Fits settings named kind path f

theorem valid_empty : r.Valid settings named {} := by
  intro kind path f h
  cases h

theorem Valid.put {c : Cache} {kind : ContentKind} {file name path fallback found data : Text}
    {f : Fragment} (h : r.Valid settings named c) (hcons : settings.Consistent named)
    (hnamed : named kind file name) (hresolve : Path.resolve? file name = some (path, fallback))
    (hleads : settings.Leads file name found data) (hf : r.Means settings kind found f) :
    r.Valid settings named (c.put (Cache.key kind path) f) := by
  intro kind' path' g hg
  rw [Cache.get?_put] at hg
  split at hg
  · rename_i hkey
    obtain ⟨rfl, rfl⟩ := Cache.key_inj.mp hkey
    cases hg
    intro file' name' fallback' hnamed' hvalid hresolve'
    refine ⟨found, data, ?_, hf⟩
    exact hcons _ file name file' name' _ _ _ hnamed hnamed' hvalid hresolve hresolve' found data hleads
  · exact h kind' path' g hg

end Registry
end Atmark
