import Atmark.Proofs.Cache.Again

/-! Parsing with a cache and without one. As long as every fragment of the cache is what it stands for, the
two runs end alike, and the cache stays as it should be (`parseSource_cached`). A hit skips the check for
cycles; that this hides none is because a template in the cache was parsed before, below some file, and
would have met the cycle then. -/
namespace Atmark
open Node ParseM Directive Pairing

namespace Registry
variable {r : Registry} {settings : Settings} {named : Named}

/-- A run with a cache and one without. The second one may end with a cycle that closes at one of the files,
a template that can be parsed elsewhere. -/
def cached (r : Registry) (settings : Settings) (named : Named) (chain closing : List Text)
    (path src : Text) : Pairing where
  path := path
  tokens := Token.ofSource src
  left := chain
  right := chain
  caches c c' := (∃ k, c = some k ∧ r.Valid settings named k) ∧ c' = none
  bad e := ∃ p ∈ closing, e.Closes p ∧ ∃ f, r.Means settings .template p f
  lost _ := False
  included := .inl Iff.rfl

section Cached
variable {chain : List Text} {path src name : Text} {t t' : Tools} {k : Nat}

/-! ## Hits -/

/-- A name that leads to a content is found, perhaps with a record that the fallback was tried. -/
theorem freshContent_leads {convert : Text → Text → ParseM Fragment} {s : State} {found data : Text}
    (pos : Option Position) (h : t.settings.Leads s.path name found data) :
    ∃ log, freshContent t name pos convert s =
      convert data found { s with world := { s.world with log } } := by
  have hread := (Settings.leads_iff pos).mp h
  rcases hcontent : Content.read t.settings.files s.path name pos with ⟨result, tried⟩
  rw [hcontent] at hread
  cases hread
  simp only [freshContent, readContent, bind_assoc, bind_get, hcontent]
  cases tried <;> exact ⟨_, rfl⟩

/-- A fragment of the cache, where the run without one has to parse the template. -/
theorem hit_template (hr : r.Blind) (hembed : t'.embed = r.embedIn settings k chain path)
    (hroom : settings.Room k (chain ++ [path])) {file data : Text} {f : Fragment}
    (hdata : settings.Has file data) (hf : r.Means settings .template file f)
    (pos : Option Position) {s s' : State}
    (hs : (r.cached settings named chain (chain ++ [path]) path src).Alike s s') :
    (r.cached settings named chain (chain ++ [path]) path src).Outcome SameBare (.ok f s)
      (embedTemplate t' pos data file s') := by
  have hchain : s'.includers ++ [s'.path] = chain ++ [path] := by rw [hs.includers.2, hs.path.2]; rfl
  -- the check for cycles, which a hit skips
  by_cases hcycle : file ∈ chain ++ [path]
  · rw [embedTemplate_cycle t' pos data (hchain ▸ hcycle)]
    exact .bad ⟨file, hcycle, ⟨_, _, _, rfl⟩, f, hf⟩
  obtain ⟨left, hleft, -, data', n, w, ns, d, w₁, hdata', hc, hb, hparse, hsame⟩ := hf
  obtain rfl := hdata.unique hdata'
  obtain ⟨j, rfl⟩ := hroom.exists_eq_succ
  rw [embedTemplate_new (hchain ▸ hcycle), hembed]
  refine .note_right hs _ _ fun s₁ hs₁ => ?_
  have hsettings : settings = { settings with files := settings.files } := rfl
  have hends := parseSource_again hr hsettings n hleft ⟨hb, hs₁.budget.2⟩
    ⟨hc, hs₁.caches.2⟩ hdata (.refl settings file)
    fun _ hasks => hroom.next hcycle (hdata.mem_paths hasks.ne_nil)
  rw [hparse] at hends
  simp only [embedIn, Bind.bind, EStateM.bind, ofWorld]
  rcases hends.of_ok with ⟨ns', w', hY, hns, hb', hc'⟩ | ⟨e, w', hY, p, hp, -, hcloses, hmeans⟩
  · rw [hY]
    refine .ok (hsame.trans (sameBare_iff.mpr ⟨hns, rfl, rfl⟩)) ?_
    exact { hs₁ with budget := ⟨hs₁.budget.1, hb'⟩, caches := ⟨hs₁.caches.1, hc'.2⟩ }
  · rw [hY]
    exact .bad ⟨p, hp, hcloses, hmeans⟩

/-- A fragment of the cache, where the run without one has to find and convert the content. -/
theorem hit_outcome (hr : r.Blind) (hsettings : t'.settings = settings)
    (hembed : t'.embed = r.embedIn settings k chain path) (hroom : settings.Room k (chain ++ [path]))
    {kind : ContentKind} {found data : Text} {f : Fragment}
    (hleads : settings.Leads path name found data) (hf : r.Means settings kind found f)
    (pos : Option Position) {s s' : State}
    (hs : (r.cached settings named chain (chain ++ [path]) path src).Alike s s') :
    (r.cached settings named chain (chain ++ [path]) path src).Outcome SameBare (.ok f s)
      (freshContent t' name pos (convert t' pos kind) s') := by
  subst hsettings
  have hleads' : t'.settings.Leads s'.path name found data := by rw [hs.path.2]; exact hleads
  obtain ⟨log, hfresh⟩ := freshContent_leads pos hleads'
  rw [hfresh]
  have hs₁ : (r.cached t'.settings named chain (chain ++ [path]) path src).Alike s
      { s' with world := { s'.world with log } } := { hs with budget := hs.budget, caches := hs.caches }
  cases kind with
  | html =>
    obtain ⟨data', hdata, hsame⟩ := hf
    obtain rfl := hleads.has.unique hdata
    exact .ok hsame hs₁
  | markdown =>
    obtain ⟨data', html, hdata, hhtml, hsame⟩ := hf
    obtain rfl := hleads.has.unique hdata
    simp only [convert, markdownText, Content.renderMarkdown, hhtml]
    exact .ok hsame hs₁
  | template => exact hit_template hr hembed hroom hleads.has hf pos hs₁

/-! ## Misses -/

/-- What `parseSource_cached` says about sources that are parsed with `k` includes inside each other. -/
def ParsesCached (r : Registry) (settings : Settings) (named : Named) (k : Nat) : Prop :=
  ∀ ⦃chain : List Text⦄ ⦃path src : Text⦄ ⦃w w' : World⦄, w.budget = none ∧ w'.budget = none →
    (∃ c, w.cache = some c ∧ r.Valid settings named c) ∧ w'.cache = none → path ∉ chain →
    named.Covers path src → (∀ data, settings.Has path data → data = src) →
    (∀ name, Asks src name → settings.Room k (chain ++ [path])) →
    (r.cached settings named chain chain path src).Ends (r.parseSource settings (k + 1) chain path src w)
      (r.parseSource settings (k + 1) chain path src w')

theorem embedTemplate_cached (ih : ∀ j, k = j + 1 → r.ParsesCached settings named j)
    (hall : ∀ file src, settings.Has file src → named.Covers file src)
    (hembed : t.embed = r.embedIn settings k chain path)
    (hembed' : t'.embed = r.embedIn settings k chain path)
    (hroom : settings.Room k (chain ++ [path])) {file data : Text} (hdata : settings.Has file data)
    (pos : Option Position) : (r.cached settings named chain (chain ++ [path]) path src).Lockstep
      (embedTemplate t pos data file) (embedTemplate t' pos data file)
      (Stands r settings .template file) := by
  intro s s' hs
  have hchain : s.includers ++ [s.path] = chain ++ [path] := by rw [hs.includers.1, hs.path.1]; rfl
  have hchain' : s'.includers ++ [s'.path] = chain ++ [path] := by rw [hs.includers.2, hs.path.2]; rfl
  by_cases hcycle : file ∈ chain ++ [path]
  · rw [embedTemplate_cycle t pos data (hchain ▸ hcycle),
      embedTemplate_cycle t' pos data (hchain' ▸ hcycle), hchain, hchain']
    exact .error hs.caches
  rw [embedTemplate_new (hchain ▸ hcycle), embedTemplate_new (hchain' ▸ hcycle), hembed, hembed']
  refine (note_lockstep _ _ _ _ s s' hs).bind fun _ _ s₁ s₁' _ _ hs₁ => ?_
  obtain ⟨j, rfl⟩ := hroom.exists_eq_succ
  have hends := ih j rfl hs₁.budget hs₁.caches hcycle (hall file data hdata) (fun _ h => hdata.unique h)
    fun _ hasks => hroom.next hcycle (hdata.mem_paths hasks.ne_nil)
  refine embedIn_outcome hs₁ hends (fun _ _ h => h) (fun _ h => h) (fun _ h => h) ?_
  intro ns ns' d w w' _ hY hns
  have hsame : SameBare (fragmentOf ns d) (fragmentOf ns' d) := sameBare_iff.mpr ⟨hns, rfl, rfl⟩
  exact ⟨hsame, chain ++ [path], by simp, hcycle, data, _, s₁'.world, ns', d, w', hdata,
    hs₁.caches.2, hs₁.budget.2, hY, hsame⟩

/-- What is done with a cache depends on the first path that a name is looked up at. -/
theorem cachedContent_of_cache {kind : ContentKind} {pos : Option Position}
    {convert : Text → Text → ParseM Fragment} {s : State} {c : Cache} (hc : s.world.cache = some c) :
    cachedContent t kind name pos convert s =
      match if Path.isValidName name then Path.resolve? s.path name else none with
      | none => freshContent t name pos convert s
      | some (file, _) =>
        match c.get? (Cache.key kind file) with
        | some f => (do
            note "cache hit" [("key", Cache.key kind file)]
            return f : ParseM Fragment) s
        | none => (do
            note "cache miss" [("key", Cache.key kind file)]
            let f ← freshContent t name pos convert
            modify fun s => { s with
              world := { s.world with cache := s.world.cache.map (·.put (Cache.key kind file) f) } }
            return f : ParseM Fragment) s := by
  have hkey : cacheKey? kind name s = .ok
      ((if Path.isValidName name then Path.resolve? s.path name else none).map
        fun found => (c, Cache.key kind found.1)) s := by
    simp only [cacheKey?, bind_get, hc]
    cases Path.isValidName name <;> rfl
  simp only [cachedContent, Bind.bind, EStateM.bind, hkey]
  cases (if Path.isValidName name then Path.resolve? s.path name else none) with
  | none => rfl
  | some found =>
    cases hget : c.get? (Cache.key kind found.1) <;> simp only [Option.map, hget] <;> rfl

theorem cachedContent_cached (hr : r.Blind) (hcons : settings.Consistent named)
    (hsettings' : t'.settings = settings) (hembed' : t'.embed = r.embedIn settings k chain path)
    (hroom : settings.Room k (chain ++ [path])) {kind : ContentKind} {pos : Option Position}
    (hnamed : named kind path name)
    (hfresh : (r.cached settings named chain (chain ++ [path]) path src).Lockstep
      (freshContent t name pos (convert t pos kind)) (freshContent t' name pos (convert t' pos kind))
      fun f f' => ∃ found data, settings.Leads path name found data ∧
        Stands r settings kind found f f') :
    (r.cached settings named chain (chain ++ [path]) path src).Lockstep
      (cachedContent t kind name pos (convert t pos kind))
      (cachedContent t' kind name pos (convert t' pos kind)) SameBare := by
  intro s s' hs
  obtain ⟨c, hc, hvalid⟩ := hs.caches.1
  have hpath : s.path = path := hs.path.1
  rw [cachedContent_of_no_cache hs.caches.2, cachedContent_of_cache hc, hpath]
  have hplain : (r.cached settings named chain (chain ++ [path]) path src).Outcome SameBare
      (freshContent t name pos (convert t pos kind) s)
      (freshContent t' name pos (convert t' pos kind) s') := by
    refine (hfresh s s' hs).mono ?_
    rintro f f' ⟨-, -, -, hsame, -⟩
    exact hsame
  cases hname : Path.isValidName name with
  | false => exact hplain
  | true =>
    cases hresolve : Path.resolve? path name with
    | none => exact hplain
    | some found =>
      obtain ⟨file, fallback⟩ := found
      simp only [if_true]
      cases hget : c.get? (Cache.key kind file) with
      | some f =>
        obtain ⟨found, data, hleads, hmeans⟩ := hvalid kind file f hget path name _ hnamed hname hresolve
        refine .note_left hs _ _ fun s₁ hs₁ => ?_
        exact hit_outcome hr hsettings' hembed' hroom hleads hmeans pos hs₁
      | none =>
        -- what is found is kept under the first path, which decides it for every other name
        rw [← bind_pure (freshContent t' name pos (convert t' pos kind))]
        refine .note_left hs _ _ fun s₂ hs₂ => ?_
        refine (hfresh s₂ s' hs₂).bind fun f f' s₁ s₁' _ hf hs₁ => ?_
        obtain ⟨found, data, hleads, hsame, hmeans⟩ := hf
        obtain ⟨c', hc', hvalid'⟩ := hs₁.caches.1
        refine .ok hsame { hs₁ with caches := ⟨⟨c'.put (Cache.key kind file) f, ?_, ?_⟩, hs₁.caches.2⟩ }
        · simp [hc']
        · exact hvalid'.put hcons hnamed hresolve hleads hmeans

theorem finds_cached (hr : r.Blind) (hcons : settings.Consistent named)
    (ih : ∀ j, k = j + 1 → r.ParsesCached settings named j)
    (hall : ∀ file src, settings.Has file src → named.Covers file src)
    (hcovers : named.Covers path src)
    (hroom : ∀ name, Asks src name → settings.Room k (chain ++ [path])) :
    (r.cached settings named chain (chain ++ [path]) path src).Finds settings settings
      (r.embedIn settings k chain path) (r.embedIn settings k chain path) := by
  have hfresh : ∀ t t' : Tools, t.settings = settings → t'.settings = settings →
      t.embed = r.embedIn settings k chain path → t'.embed = r.embedIn settings k chain path →
      ∀ kind name pos, Asks src name → (r.cached settings named chain (chain ++ [path]) path src).Lockstep
        (freshContent t name pos (convert t pos kind)) (freshContent t' name pos (convert t' pos kind))
        fun f f' => ∃ file data, settings.Leads path name file data ∧
          Stands r settings kind file f f' := by
    rintro t t' rfl hsettings' hembed hembed' kind name pos hasks
    have hleading : (r.cached t.settings named chain (chain ++ [path]) path src).Leading t t' name :=
      ⟨by rw [hsettings'], by rw [hsettings']; exact fun _ _ h => h, .inr (by rw [hsettings'])⟩
    refine freshContent_lockstep hleading pos kind fun file data _ hleads => ?_
    exact embedTemplate_cached ih hall hembed hembed' (hroom name hasks) hleads.has pos
  refine ⟨rfl, ?_, ?_⟩
  · intro t t' ht ht' hembed hembed' kind name pos hnames
    exact cachedContent_cached hr hcons ht' hembed' (hroom name hnames.reads) (hcovers kind name hnames)
      (hfresh t t' ht ht' hembed hembed' kind name pos hnames.reads)
  · intro t t' ht ht' hembed hembed' name pos hnames
    refine (hfresh t t' ht ht' hembed hembed' .template name pos hnames).mono ?_
    rintro f f' ⟨file, data, -, hsame, -⟩
    exact hsame

/-- A template that can be parsed below some file includes no file that includes it: the run without a cache
has no cycle that closes at the template itself. -/
theorem not_closes_self (hr : r.Blind) (hpath : path ∉ chain)
    (hsrc : ∀ data, settings.Has path data → data = src)
    (hroom : ∀ name, Asks src name → settings.Room k (chain ++ [path])) {w w' : World} {e : Error}
    (hb : w.budget = none) (hc : w.cache = none)
    (hrun : r.parseSource settings (k + 1) chain path src w = .error e w') (hcloses : e.Closes path)
    {f : Fragment} : ¬ r.Means settings .template path f := by
  rintro ⟨left, hleft, -, data, n, w₀, ns, d, w₁, hdata, hc₀, hb₀, hparse, -⟩
  obtain rfl := hsrc data hdata
  have hsettings : settings = { settings with files := settings.files } := rfl
  have hends := parseSource_again hr hsettings n hleft ⟨hb₀, hb⟩ ⟨hc₀, hc⟩ hdata (.refl settings path) hroom
  rw [hparse, hrun] at hends
  rcases hends.of_ok with ⟨ns', w₂, hY, -⟩ | ⟨e', w₂, hY, p, hp, -, hp', -⟩
  · cases hY
  · cases hY
    exact hpath (hcloses.unique hp' ▸ hp)

theorem parseSource_cached_step (hr : r.Blind) (hcons : settings.Consistent named)
    (hall : ∀ file src, settings.Has file src → named.Covers file src)
    (ih : ∀ j, k = j + 1 → r.ParsesCached settings named j) : r.ParsesCached settings named k := by
  intro chain path src w w' hbudget hcache hpath hcovers hsrc hroom
  have hends : (r.cached settings named chain (chain ++ [path]) path src).Ends
      (r.parseSource settings (k + 1) chain path src w)
      (r.parseSource settings (k + 1) chain path src w') := by
    refine parseSource_ends hr rfl (finds_cached hr hcons ih hall hcovers hroom) ?_ (fun _ h => h)
      hbudget hcache
    rintro e ⟨p, hp, hcloses, hmeans⟩
    exact ⟨p, hp, hcloses.withPath path, hmeans⟩
  generalize r.parseSource settings (k + 1) chain path src w = x at hends ⊢
  generalize hY : r.parseSource settings (k + 1) chain path src w' = y at hends ⊢
  cases hends with
  | ok hns hb hc => exact .ok hns hb hc
  | error hc => exact .error hc
  | lost he => exact he.elim
  | bad he =>
    obtain ⟨p, hp, hcloses, f, hmeans⟩ := he
    rcases List.mem_append.mp hp with hp | hp
    · exact .bad ⟨p, hp, hcloses, f, hmeans⟩
    · -- the fragment of the template could not have been made
      obtain rfl := List.mem_singleton.mp hp
      exact (not_closes_self hr hpath hsrc hroom hbudget.2 hcache.2 hY hcloses hmeans).elim

/-- With a cache whose fragments fit their keys, a source is parsed as without one; or without one there is a
cycle that closes at a file that includes it. -/
theorem parseSource_cached (hr : r.Blind) (hcons : settings.Consistent named)
    (hall : ∀ file src, settings.Has file src → named.Covers file src) (k : Nat) :
    r.ParsesCached settings named k := by
  induction k with
  | zero => exact parseSource_cached_step hr hcons hall (by simp)
  | succ k ih =>
    have hk : ∀ j, k + 1 = j + 1 → r.ParsesCached settings named j := by
      intro j hj
      cases hj
      exact ih
    exact parseSource_cached_step hr hcons hall hk

end Cached
end Registry
end Atmark
