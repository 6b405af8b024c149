import Atmark.Proofs.Cache.Coherent
import Atmark.Proofs.Parse.Postponed

/-! Parsing once more with other files. If every name that the templates mention still leads to the same content,
each of them is parsed alike, with caches in which the same fragments are found; other files may come and go
(`Registry.parseSource_steady`). -/
namespace Atmark
open Node ParseM Directive Pairing

/-- Each name that the templates mention leads with the other settings to the content that it led to. -/
def Settings.Steady (settings settings' : Settings) (templates : List Text) : Prop :=
  ∀ file name found data, settings.Mentions templates contentNames file name →
    settings.Leads file name found data → settings'.Leads file name found data

/-- The caches hold fragments of the same keys, and these are bare the same. -/
def Cache.Matches (c c' : Cache) : Prop := ∀ key, (c.get? key).map Fragment.bare = (c'.get? key).map Fragment.bare

theorem Cache.Matches.put {c c' : Cache} (h : c.Matches c') (key : Text) {f f' : Fragment} (hf : SameBare f f') :
    (c.put key f).Matches (c'.put key f') := by
  intro key'
  rw [get?_put, get?_put]
  split
  · exact congrArg some hf
  · exact h key'

namespace Pairing

/-- Two runs below the same files, with caches that match. Nothing is said of the second one unless the first
one returns. -/
def steady (chain : List Text) (path src : Text) : Pairing where
  path := path
  tokens := Token.ofSource src
  left := chain
  right := chain
  caches c c' := ∃ k k', c = some k ∧ c' = some k' ∧ k.Matches k'
  bad _ := False
  lost _ := True
  included := .inl Iff.rfl

end Pairing

namespace Registry
variable {r : Registry} {settings settings' : Settings} {templates chain : List Text} {path src name : Text}
  {t t' : Tools} {i j : Nat}

/-- What `parseSource_steady` says about sources that are parsed with `i` includes inside each other. -/
def ParsesSteady (r : Registry) (settings settings' : Settings) (templates : List Text) (i : Nat) : Prop :=
  ∀ ⦃j : Nat⦄ ⦃chain : List Text⦄ ⦃path src : Text⦄ ⦃w w' : World⦄, i ≤ j → w.budget = none ∧ w'.budget = none →
    (steady chain path src).caches w.cache w'.cache → settings.Reached templates path → settings.Has path src →
    (steady chain path src).Ends (r.parseSource settings i chain path src w)
      (r.parseSource settings' j chain path src w')

theorem embedTemplate_steady (ih : r.ParsesSteady settings settings' templates i) (hij : i ≤ j)
    (hembed : t.embed = r.embedIn settings i chain path) (hembed' : t'.embed = r.embedIn settings' j chain path)
    {file data : Text} (hfile : settings.Reached templates file) (hdata : settings.Has file data)
    (pos : Option Position) :
    (steady chain path src).Lockstep (embedTemplate t pos data file) (embedTemplate t' pos data file) SameBare := by
  intro s s' hs
  have hchain : s.includers ++ [s.path] = chain ++ [path] := by rw [hs.includers.1, hs.path.1]; rfl
  have hchain' : s'.includers ++ [s'.path] = chain ++ [path] := by rw [hs.includers.2, hs.path.2]; rfl
  by_cases hcycle : file ∈ chain ++ [path]
  · rw [embedTemplate_cycle t pos data (hchain ▸ hcycle)]
    exact .lost trivial
  rw [embedTemplate_new (hchain ▸ hcycle), embedTemplate_new (hchain' ▸ hcycle), hembed, hembed']
  refine (note_lockstep _ _ _ _ s s' hs).bind fun _ _ s₁ s₁' _ _ hs₁ => ?_
  have hends : (steady (chain ++ [path]) file data).Ends
      (r.parseSource settings i (chain ++ [path]) file data s₁.world)
      (r.parseSource settings' j (chain ++ [path]) file data s₁'.world) :=
    ih hij hs₁.budget hs₁.caches hfile hdata
  refine embedIn_outcome hs₁ hends (fun _ _ h => h) (fun _ h => h) (fun _ h => h) ?_
  intro ns ns' d _ _ _ _ hns
  exact sameBare_iff.mpr ⟨hns, rfl, rfl⟩

/-- A content that is found alike is converted alike, if templates are. -/
theorem freshContent_steady (hsettings : t'.settings = { t.settings with files := t'.settings.files })
    (hleads : ∀ found data, t.settings.Leads path name found data → t'.settings.Leads path name found data)
    (pos : Option Position) (kind : ContentKind)
    (hembed : ∀ found data, kind = .template → t.settings.Leads path name found data →
      (steady chain path src).Lockstep (embedTemplate t pos data found) (embedTemplate t' pos data found)
        SameBare) :
    (steady chain path src).Lockstep (freshContent t name pos (convert t pos kind))
      (freshContent t' name pos (convert t' pos kind)) SameBare := by
  have hleading : (steady chain path src).Leading t t' name := ⟨hsettings, hleads, .inl fun _ => trivial⟩
  refine (readContent_lockstep hleading pos).bind ?_
  rintro ⟨data, found⟩ _ ⟨rfl, hfound⟩
  cases kind with
  | html => exact .pure rfl
  | markdown =>
    have hmarkdown : t'.settings.markdown = t.settings.markdown := by rw [hsettings]
    dsimp only [convert]
    unfold markdownText Content.renderMarkdown
    rw [hmarkdown]
    cases t.settings.markdown data with
    | ok html => exact .pure rfl
    | error reason => exact .throw _
  | template => exact hembed found data rfl hfound

/-- What is found in one cache is found in the other, and what is put into one is put into the other. -/
theorem cachedContent_steady {kind : ContentKind} {pos : Option Position}
    (hfresh : (steady chain path src).Lockstep (freshContent t name pos (convert t pos kind))
      (freshContent t' name pos (convert t' pos kind)) SameBare) :
    (steady chain path src).Lockstep (cachedContent t kind name pos (convert t pos kind))
      (cachedContent t' kind name pos (convert t' pos kind)) SameBare := by
  intro s s' hs
  obtain ⟨c, c', hc, hc', hmatch⟩ := hs.caches
  have hpath : s.path = path := hs.path.1
  have hpath' : s'.path = path := hs.path.2
  rw [cachedContent_of_cache hc, cachedContent_of_cache hc', hpath, hpath']
  cases (if Path.isValidName name then Path.resolve? path name else none) with
  | none => exact hfresh s s' hs
  | some found =>
    have hkey := hmatch (Cache.key kind found.1)
    dsimp only
    cases hget : c.get? (Cache.key kind found.1) with
    | some f =>
      rw [hget] at hkey
      obtain ⟨f', hget', hf⟩ := Option.map_eq_some_iff.mp hkey.symm
      rw [hget']
      exact (note_lockstep _ _ _ _ s s' hs).bind fun _ _ x x' _ _ hx => .ok hf.symm hx
    | none =>
      rw [hget] at hkey
      rw [Option.map_eq_none_iff.mp hkey.symm]
      refine ((note_lockstep _ _ _ _).next fun _ => hfresh.bind fun f f' hf => ?_) s s' hs
      refine Lockstep.next (.modify fun x x' hx => ?_) fun _ => .pure hf
      obtain ⟨k, k', hk, hk', hsame⟩ := hx.caches
      have hput : (steady chain path src).caches (x.world.cache.map (·.put (Cache.key kind found.1) f))
          (x'.world.cache.map (·.put (Cache.key kind found.1) f')) :=
        ⟨_, _, by rw [hk]; rfl, by rw [hk']; rfl, hsame.put _ hf⟩
      exact { hx with budget := hx.budget, caches := hput }

theorem finds_steady (ih : r.ParsesSteady settings settings' templates i) (hij : i ≤ j)
    (hsettings : settings' = { settings with files := settings'.files })
    (hsteady : settings.Steady settings' templates) (hpath : settings.Reached templates path)
    (hsrc : settings.Has path src) :
    (steady chain path src).Finds settings settings' (r.embedIn settings i chain path)
      (r.embedIn settings' j chain path) := by
  have hfresh : ∀ t t' : Tools, t.settings = settings → t'.settings = settings' →
      t.embed = r.embedIn settings i chain path → t'.embed = r.embedIn settings' j chain path →
      ∀ kind name pos, Asks src name →
      (steady chain path src).Lockstep (freshContent t name pos (convert t pos kind))
        (freshContent t' name pos (convert t' pos kind)) SameBare := by
    intro t t' ht ht' hembed hembed' kind name pos hasks
    subst ht ht'
    have hmentions : t.settings.Mentions templates contentNames path name :=
      ⟨hpath, src, hsrc, hasks.mono (List.subset_append_left _ _)⟩
    refine freshContent_steady hsettings (fun found data => hsteady _ _ _ _ hmentions) pos kind ?_
    intro found data _ hleads
    have hincl : t.settings.Includes path found := ⟨src, name, data, hsrc, hasks, hleads⟩
    exact embedTemplate_steady ih hij hembed hembed' (hpath.included hincl) hleads.has pos
  refine ⟨hsettings, ?_, ?_⟩
  · intro t t' ht ht' hembed hembed' kind name pos hnames
    exact cachedContent_steady (hfresh t t' ht ht' hembed hembed' kind name pos hnames.reads)
  · intro t t' ht ht' hembed hembed' name pos hnames
    exact hfresh t t' ht ht' hembed hembed' .template name pos hnames

/-- A source is parsed with the other files as it was, if all the names that are mentioned still lead where they
led; with more files, more of them may be inside each other. -/
theorem parseSource_steady (hr : r.Blind) (hsettings : settings' = { settings with files := settings'.files })
    (hsteady : settings.Steady settings' templates) (i : Nat) :
    r.ParsesSteady settings settings' templates i := by
  induction i with
  | zero =>
    intro j chain path src w w' _ _ _ _ _
    exact .lost trivial
  | succ i ih =>
    intro j chain path src w w' hij hbudget hcaches hpath hsrc
    obtain ⟨k, rfl⟩ : ∃ k, j = k + 1 := ⟨j - 1, by omega⟩
    exact parseSource_ends (P := steady chain path src) hr rfl
      (finds_steady ih (Nat.le_of_succ_le_succ hij) hsettings hsteady hpath hsrc) (fun _ h => h) (fun _ h => h)
      hbudget hcaches

end Registry
end Atmark
