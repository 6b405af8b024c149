import Atmark.Proofs.Cache.Meaning

/-! Parsing a template once more. A template that is parsed without a cache below some files is parsed to the
same bare nodes below others, as long as the names in it lead to the same contents; the only thing that can
be in the way is a cycle that closes at one of the new files (`parseSource_again`). -/
namespace Atmark
open Node ParseM Directive

theorem ParseM.bind_get {α : Type} (f : State → ParseM α) (s : State) : (get >>= f) s = f s s := rfl

/-! ## From steps to sources -/

namespace Pairing

/-- How parsing a source may end in the two runs. -/
inductive Ends (P : Pairing) : EStateM.Result Error World (List Node × Declarations) →
    EStateM.Result Error World (List Node × Declarations) → Prop
  | ok {ns ns' : List Node} {d : Declarations} {w w' : World} : bareAll ns = bareAll ns' →
      w.budget = none ∧ w'.budget = none → P.caches w.cache w'.cache →
      Ends P (.ok (ns, d) w) (.ok (ns', d) w')
  | error {e : Error} {w w' : World} : P.caches w.cache w'.cache → Ends P (.error e w) (.error e w')
  | bad {r : EStateM.Result Error World (List Node × Declarations)} {e : Error} {w' : World} :
      P.bad e → Ends P r (.error e w')
  | lost {e : Error} {w : World} {r' : EStateM.Result Error World (List Node × Declarations)} :
      P.lost e → Ends P (.error e w) r'

variable {P : Pairing} {r : Registry} {settings settings' : Settings}

/-- If the first run returns, the second one does so alike or with an error of its own. -/
theorem Ends.of_ok {ns : List Node} {d : Declarations} {w : World}
    {y : EStateM.Result Error World (List Node × Declarations)} (h : P.Ends (.ok (ns, d) w) y) :
    (∃ ns' w', y = .ok (ns', d) w' ∧ bareAll ns = bareAll ns' ∧ w'.budget = none ∧
      P.caches w.cache w'.cache) ∨ ∃ e w', y = .error e w' ∧ P.bad e := by
  cases h with
  | ok hns hb hc => exact .inl ⟨_, _, rfl, hns, hb.2, hc⟩
  | bad he => exact .inr ⟨_, _, rfl, he⟩

/-- Two runs over a source end alike if they find contents alike. -/
theorem parseSource_ends (hr : r.Blind) {n n' : Nat} {src : Text} (htokens : P.tokens = Token.ofSource src)
    (hfinds : P.Finds settings settings' (r.embedIn settings n P.left P.path)
      (r.embedIn settings' n' P.right P.path))
    (hbad : ∀ e, P.bad e → P.bad (e.withPath P.path))
    (hlost : ∀ e, P.lost e → P.lost (e.withPath P.path)) {w w' : World}
    (hbudget : w.budget = none ∧ w'.budget = none) (hcaches : P.caches w.cache w'.cache) :
    P.Ends (r.parseSource settings (n + 1) P.left P.path src w)
      (r.parseSource settings' (n' + 1) P.right P.path src w') := by
  cases hlex : Token.lex src with
  | error e =>
    unfold Registry.parseSource
    simp only [hlex]
    exact .error hcaches
  | ok p =>
    obtain ⟨tokens, trailing⟩ := p
    obtain rfl : tokens = P.tokens := by rw [htokens, Token.ofSource, hlex]
    have hturns : r.turns w' P.tokens = r.turns w P.tokens := by
      simp only [Registry.turns, hbudget.1, hbudget.2]
    have hstart : P.Alike
        { world := w, path := P.path, includers := P.left, stream := .ofTokens P.tokens }
        { world := w', path := P.path, includers := P.right, stream := .ofTokens P.tokens } :=
      { declared := rfl, stream := rfl, atStart := rfl, markup := rfl, last := rfl, broken := rfl,
        trimLine := rfl, sink := rfl, path := ⟨rfl, rfl⟩, includers := ⟨rfl, rfl⟩, budget := hbudget,
        caches := hcaches, part := .whole }
    have hread := readTokens_lockstep hr hfinds (r.turns w P.tokens) P.tokens trailing _ _ hstart
    rw [Registry.parseSource_lexed r settings n P.left P.path src w hlex,
      Registry.parseSource_lexed r settings' n' P.right P.path src w' hlex, hturns]
    unfold WorldM.ofParse
    generalize Registry.readTokens r settings _ _ P.tokens trailing _ = x at hread
    generalize Registry.readTokens r settings' _ _ P.tokens trailing _ = y at hread
    cases hread with
    | ok _ ht =>
      dsimp only
      rw [ht.declared]
      refine .ok ?_ ht.budget ht.caches
      rw [bareAll_reverse, bareAll_reverse, ht.sink]
    | error hc => exact .error hc
    | bad he =>
      cases x <;> exact .bad (hbad _ he)
    | lost he =>
      cases y <;> exact .lost (hlost _ he)

/-- A template is embedded as its source is parsed. -/
theorem embedIn_outcome {Q : Pairing} {R : Fragment → Fragment → Prop} {n n' : Nat} {file src : Text}
    {s s' : State} (hs : P.Alike s s')
    (hends : Q.Ends (r.parseSource settings n (P.left ++ [P.path]) file src s.world)
      (r.parseSource settings' n' (P.right ++ [P.path]) file src s'.world))
    (hcaches : ∀ c c', Q.caches c c' → P.caches c c') (hbad : ∀ e, Q.bad e → P.bad e)
    (hlost : ∀ e, Q.lost e → P.lost e)
    (hR : ∀ ns ns' d w w',
      r.parseSource settings n (P.left ++ [P.path]) file src s.world = .ok (ns, d) w →
      r.parseSource settings' n' (P.right ++ [P.path]) file src s'.world = .ok (ns', d) w' →
      bareAll ns = bareAll ns' → R (Registry.fragmentOf ns d) (Registry.fragmentOf ns' d)) :
    P.Outcome R (r.embedIn settings n P.left P.path file src s)
      (r.embedIn settings' n' P.right P.path file src s') := by
  simp only [Registry.embedIn, Bind.bind, EStateM.bind, ofWorld]
  generalize r.parseSource settings n (P.left ++ [P.path]) file src s.world = x at hends hR
  generalize r.parseSource settings' n' (P.right ++ [P.path]) file src s'.world = y at hends hR
  cases hends with
  | ok hns hb hc => exact .ok (hR _ _ _ _ _ rfl rfl hns) { hs with budget := hb, caches := hcaches _ _ hc }
  | error hc => exact .error (hcaches _ _ hc)
  | bad he => cases x <;> exact .bad (hbad _ he)
  | lost he => cases y <;> exact .lost (hlost _ he)

/-! ## Contents -/

section Contents
variable {t t' : Tools} {name : Text}

/-- The names lead to the same contents in both runs, or the first one fails. -/
structure Leading (P : Pairing) (t t' : Tools) (name : Text) : Prop where
  settings : t'.settings = { t.settings with files := t'.settings.files }
  leads : ∀ path data, t.settings.Leads P.path name path data → t'.settings.Leads P.path name path data
  fails : (∀ e, P.lost e) ∨ t'.settings.files = t.settings.files

/-- A record of one of the runs does not put them out of step. -/
theorem Outcome.note_left {α : Type} {R : α → α → Prop} {m : ParseM α}
    {y : EStateM.Result Error State α} {s s' : State} (hs : P.Alike s s') (message : String)
    (fields : List (String × Text)) (h : ∀ s₁, P.Alike s₁ s' → P.Outcome R (m s₁) y) :
    P.Outcome R ((note message fields >>= fun _ => m) s) y :=
  h _ { hs with budget := hs.budget, caches := hs.caches }

theorem Outcome.note_right {α : Type} {R : α → α → Prop} {m : ParseM α}
    {x : EStateM.Result Error State α} {s s' : State} (hs : P.Alike s s') (message : String)
    (fields : List (String × Text)) (h : ∀ s₁, P.Alike s s₁ → P.Outcome R x (m s₁)) :
    P.Outcome R x ((note message fields >>= fun _ => m) s') :=
  h _ { hs with budget := hs.budget, caches := hs.caches }

theorem readContent_lockstep (h : P.Leading t t' name) (pos : Option Position) :
    P.Lockstep (readContent t name pos) (readContent t' name pos)
      fun a b => a = b ∧ t.settings.Leads P.path name a.2 a.1 := by
  refine Lockstep.get.bind fun s s' hs => ?_
  rw [hs.path.1, hs.path.2]
  intro s₁ s₁' hs₁
  rcases hread : Content.read t.settings.files P.path name pos with ⟨result, tried⟩
  rcases hread' : Content.read t'.settings.files P.path name pos with ⟨result', tried'⟩
  cases result with
  | ok found =>
    obtain ⟨data, path⟩ := found
    have hl : t.settings.Leads P.path name path data := (Settings.leads_iff pos).mpr (by rw [hread])
    have hl' := (Settings.leads_iff pos).mp (h.leads path data hl)
    rw [hread'] at hl'
    cases hl'
    cases tried <;> cases tried' <;>
      exact .ok ⟨rfl, hl⟩ { hs₁ with budget := hs₁.budget, caches := hs₁.caches }
  | error e =>
    rcases h.fails with hlost | hfiles
    · cases tried <;> exact .lost (hlost e)
    · rw [hfiles, hread] at hread'
      cases hread'
      cases tried <;> exact .error hs₁.caches

/-- What the fragment of a content must be in both runs. -/
def Stands (r : Registry) (settings : Settings) (kind : ContentKind) (path : Text) (f f' : Fragment) :
    Prop :=
  SameBare f f' ∧ r.Means settings kind path f

/-- A content is read and converted alike, if a template is. -/
theorem freshContent_lockstep (h : P.Leading t t' name) (pos : Option Position) (kind : ContentKind)
    (hembed : ∀ path data, kind = .template → t.settings.Leads P.path name path data →
      P.Lockstep (embedTemplate t pos data path) (embedTemplate t' pos data path)
        (Stands r t.settings .template path)) :
    P.Lockstep (freshContent t name pos (convert t pos kind))
      (freshContent t' name pos (convert t' pos kind))
      fun f f' => ∃ path data, t.settings.Leads P.path name path data ∧
        Stands r t.settings kind path f f' := by
  refine (readContent_lockstep h pos).bind ?_
  rintro ⟨data, path⟩ _ ⟨rfl, hleads⟩
  cases kind with
  | html => exact .pure ⟨path, data, hleads, rfl, data, hleads.has, rfl⟩
  | markdown =>
    have hmarkdown : t'.settings.markdown = t.settings.markdown := by rw [h.settings]
    dsimp only [convert]
    unfold markdownText Content.renderMarkdown
    rw [hmarkdown]
    cases hhtml : t.settings.markdown data with
    | ok html => exact .pure ⟨path, data, hleads, rfl, data, html, hleads.has, hhtml, rfl⟩
    | error reason => exact .throw _
  | template =>
    refine (hembed path data rfl hleads).mono fun f f' hf => ?_
    exact ⟨path, data, hleads, hf⟩

theorem cachedContent_of_no_cache {kind : ContentKind} {pos : Option Position}
    {convert : Text → Text → ParseM Fragment} {s : State} (h : s.world.cache = none) :
    cachedContent t kind name pos convert s = freshContent t name pos convert s := by
  have hkey : cacheKey? kind name s = .ok none s := by
    simp only [cacheKey?, bind_get, h]
    rfl
  simp only [cachedContent, Bind.bind, EStateM.bind, hkey]

end Contents

/-! ## Templates -/

/-- A template that is being parsed already is refused. -/
theorem embedTemplate_cycle (t : Tools) (pos : Option Position) (src : Text) {file : Text} {s : State}
    (h : file ∈ s.includers ++ [s.path]) : embedTemplate t pos src file s =
      .error (.at? pos (.cycle ((s.includers ++ [s.path]).dropWhile (· ≠ file) ++ [file]))) s := by
  have hcontains : (s.includers ++ [s.path]).contains file = true := by simpa using h
  simp only [embedTemplate, bind_get, hcontains, if_true]
  rfl

theorem embedTemplate_new {t : Tools} {pos : Option Position} {src file : Text} {s : State}
    (h : file ∉ s.includers ++ [s.path]) : embedTemplate t pos src file s = (do
      note "include" [("file", file)]
      t.embed file src : ParseM Fragment) s := by
  have hcontains : (s.includers ++ [s.path]).contains file = false := by simpa using h
  simp only [embedTemplate, bind_get, hcontains, Bool.false_eq_true, if_false]

end Pairing

namespace Registry
open Pairing

variable {r : Registry} {settings settings' : Settings}

/-- A template that is embedded without a cache gives what its path means. -/
theorem means_of_embedIn {n : Nat} {includers : List Text} {path file data : Text} {s s' : State}
    {f : Fragment} (hc : s.world.cache = none) (hb : s.world.budget = none)
    (hnew : file ∉ includers ++ [path]) (hdata : settings.Has file data)
    (h : Returns (r.embedIn settings n includers path file data) s f s') :
    r.Means settings .template file f := by
  obtain ⟨⟨ns, d⟩, s₁, hparse, hret⟩ := h.bind
  obtain ⟨w, hparse, -⟩ := hparse.ofWorld
  obtain ⟨rfl, -⟩ := hret.pure
  exact ⟨includers ++ [path], by simp, hnew, data, n, s.world, ns, d, w, hdata, hc, hb, hparse, rfl⟩

/-- Two runs without a cache below different files. The second one may end with a cycle that closes at one
of its own files, a template that can be parsed elsewhere. -/
def again (r : Registry) (settings : Settings) (left right : List Text) (hleft : left ≠ [])
    (path src : Text) : Pairing where
  path := path
  tokens := Token.ofSource src
  left := left
  right := right
  caches c c' := c = none ∧ c' = none
  bad e := ∃ p ∈ right, p ∉ left ∧ e.Closes p ∧ ∃ f, r.Means settings .template p f
  lost _ := True
  included := .inr ⟨hleft, fun _ => trivial⟩

section Again
variable {left right : List Text} {hleft : left ≠ []} {path src : Text} {t t' : Tools} {i j : Nat}

/-- What `parseSource_again` says about sources that are parsed with `i` includes inside each other. -/
def ParsesAgain (r : Registry) (settings settings' : Settings) (i : Nat) : Prop :=
  ∀ ⦃j : Nat⦄ ⦃left right : List Text⦄ (hleft : left ≠ []) ⦃path src : Text⦄ ⦃w w' : World⦄,
    w.budget = none ∧ w'.budget = none → w.cache = none ∧ w'.cache = none → settings.Has path src →
    settings.Keeps settings' path → (∀ name, Asks src name → settings'.Room j (right ++ [path])) →
    (r.again settings left right hleft path src).Ends (r.parseSource settings i left path src w)
      (r.parseSource settings' (j + 1) right path src w')

theorem embedTemplate_again (ih : r.ParsesAgain settings settings' i)
    (hembed : t.embed = r.embedIn settings i left path)
    (hembed' : t'.embed = r.embedIn settings' j right path) (hkeeps : settings.Keeps settings' path)
    (hroom : settings'.Room j (right ++ [path])) {file data : Text} (hdata : settings.Has file data)
    (hdata' : settings'.Has file data) (hincludes : settings.Includes path file)
    (pos : Option Position) :
    (r.again settings left right hleft path src).Lockstep (embedTemplate t pos data file)
      (embedTemplate t' pos data file) (Stands r settings .template file) := by
  intro s s' hs
  have hchain : s.includers ++ [s.path] = left ++ [path] := by rw [hs.includers.1, hs.path.1]; rfl
  have hchain' : s'.includers ++ [s'.path] = right ++ [path] := by rw [hs.includers.2, hs.path.2]; rfl
  -- nothing is said about the second run unless the first one returns
  by_cases hcycle : file ∈ left ++ [path]
  · rw [embedTemplate_cycle t pos data (hchain ▸ hcycle)]
    exact .lost trivial
  rw [embedTemplate_new (hchain ▸ hcycle)]
  -- a cycle in the second run only, at a file that is not above this one in the first
  by_cases hcycle' : file ∈ right ++ [path]
  · rw [embedTemplate_cycle t' pos data (hchain' ▸ hcycle')]
    cases hrun : (do
        note "include" [("file", file)]
        t.embed file data : ParseM Fragment) s with
    | error e₁ s₁ => exact .lost trivial
    | ok f s₁ =>
      obtain ⟨_, s₂, hnote, hret⟩ := Returns.bind hrun
      rw [hembed] at hret
      have hs₂ := hnote.modify
      have hmeans : r.Means settings .template file f :=
        means_of_embedIn (by rw [hs₂]; exact hs.caches.1) (by rw [hs₂]; exact hs.budget.1) hcycle hdata
          hret
      have hright : file ∈ right := by
        rcases List.mem_append.mp hcycle' with h | h
        · exact h
        · exact absurd (List.mem_append_right left h) hcycle
      exact .bad ⟨file, hright, fun h => hcycle (List.mem_append_left _ h), ⟨_, _, _, rfl⟩, f, hmeans⟩
  rw [embedTemplate_new (hchain' ▸ hcycle')]
  refine (note_lockstep _ _ _ _ s s' hs).bind fun _ _ s₁ s₁' _ _ hs₁ => ?_
  rw [hembed, hembed']
  obtain ⟨k, rfl⟩ := hroom.exists_eq_succ
  have hends := ih (by simp : left ++ [path] ≠ []) hs₁.budget hs₁.caches hdata (hkeeps.included hincludes)
    fun name hasks => hroom.next hcycle' (hdata'.mem_paths hasks.ne_nil)
  refine embedIn_outcome hs₁ hends (fun _ _ h => h) ?_ (fun _ h => h) ?_
  · rintro e ⟨p, hp, hnew, hcloses, hmeans⟩
    obtain ⟨hleft, hpath⟩ : p ∉ left ∧ p ≠ path := by simpa using hnew
    exact ⟨p, by simpa [hpath] using hp, hleft, hcloses, hmeans⟩
  · intro ns ns' d w w' hX _ hns
    refine ⟨sameBare_iff.mpr ⟨hns, rfl, rfl⟩, ?_⟩
    exact ⟨left ++ [path], by simp, hcycle, data, i, s₁.world, ns, d, w, hdata, hs₁.caches.1,
      hs₁.budget.1, hX, rfl⟩

theorem finds_again (ih : r.ParsesAgain settings settings' i)
    (hsettings : settings' = { settings with files := settings'.files })
    (hsrc : settings.Has path src) (hkeeps : settings.Keeps settings' path)
    (hroom : ∀ name, Asks src name → settings'.Room j (right ++ [path])) :
    (r.again settings left right hleft path src).Finds settings settings'
      (r.embedIn settings i left path) (r.embedIn settings' j right path) := by
  have hfresh : ∀ t t' : Tools, t.settings = settings → t'.settings = settings' →
      t.embed = r.embedIn settings i left path → t'.embed = r.embedIn settings' j right path →
      ∀ kind name pos, Asks src name → (r.again settings left right hleft path src).Lockstep
        (freshContent t name pos (convert t pos kind)) (freshContent t' name pos (convert t' pos kind))
        SameBare := by
    rintro t t' rfl rfl hembed hembed' kind name pos hasks
    have hleads := hkeeps path src name .refl hsrc hasks
    have hleading : (r.again t.settings left right hleft path src).Leading t t' name :=
      ⟨hsettings, hleads, .inl fun _ => trivial⟩
    refine (freshContent_lockstep (r := r) hleading pos kind ?_).mono ?_
    · intro file data _ hfound
      exact embedTemplate_again ih hembed hembed' hkeeps (hroom name hasks) hfound.has
        (hleads file data hfound).has ⟨src, name, data, hsrc, hasks, hfound⟩ pos
    · rintro f f' ⟨file, data, -, hsame, -⟩
      exact hsame
  refine ⟨hsettings, ?_, ?_⟩
  · intro t t' ht ht' hembed hembed' kind name pos hnames s s' hs
    rw [cachedContent_of_no_cache hs.caches.1, cachedContent_of_no_cache hs.caches.2]
    exact hfresh t t' ht ht' hembed hembed' kind name pos hnames.reads s s' hs
  · intro t t' ht ht' hembed hembed' name pos hnames
    exact hfresh t t' ht ht' hembed hembed' .template name pos hnames

/-- A template that is parsed below some files is parsed alike below others, or a cycle closes at one of
these. -/
theorem parseSource_again (hr : r.Blind)
    (hsettings : settings' = { settings with files := settings'.files }) (i : Nat) :
    r.ParsesAgain settings settings' i := by
  induction i with
  | zero =>
    intro j left right hleft path src w w' _ _ _ _ _
    exact .lost trivial
  | succ i ih =>
    intro j left right hleft path src w w' hbudget hcache hsrc hkeeps hroom
    refine parseSource_ends (P := r.again settings left right hleft path src) hr rfl
      (finds_again ih hsettings hsrc hkeeps hroom) ?_ (fun _ _ => trivial) hbudget hcache
    rintro e ⟨p, hp, hnew, hcloses, hmeans⟩
    exact ⟨p, hp, hnew, hcloses.withPath path, hmeans⟩

end Again

/-- A fragment goes on to be right when files change, if all that its path reaches stays the same. -/
theorem Means.keep (hr : r.Blind) (hsettings : settings' = { settings with files := settings'.files })
    {kind : ContentKind} {path : Text} {f : Fragment} (hkeeps : settings.Keeps settings' path)
    (hhas : ∀ data, settings.Has path data → settings'.Has path data)
    (h : r.Means settings kind path f) : r.Means settings' kind path f := by
  cases kind with
  | html =>
    obtain ⟨data, hdata, hf⟩ := h
    exact ⟨data, hhas data hdata, hf⟩
  | markdown =>
    obtain ⟨data, html, hdata, hhtml, hf⟩ := h
    refine ⟨data, html, hhas data hdata, ?_, hf⟩
    rw [hsettings]
    exact hhtml
  | template =>
    obtain ⟨chain, hne, hnew, data, n, w, ns, d, w₁, hdata, hc, hb, hparse, hf⟩ := h
    -- one of the files is enough to stand for the chain
    obtain ⟨z, hz⟩ := List.exists_mem_of_ne_nil chain hne
    have hnodup : ([z] ++ [path]).Nodup := by
      simpa using fun h : z = path => hnew (h ▸ hz)
    have hroom : settings'.Room (settings'.paths.length + 1) ([z] ++ [path]) :=
      .of_length hnodup (Nat.lt_succ_self _)
    have hends := parseSource_again hr hsettings n hne ⟨hb, hb⟩ ⟨hc, hc⟩ hdata hkeeps fun _ _ => hroom
    rw [hparse] at hends
    rcases hends.of_ok with ⟨ns', w', hY, hns, -, -⟩ | ⟨e, w', -, p, hp, hpnew, -, -⟩
    · refine ⟨[z], by simp, fun h => hnew (List.mem_singleton.mp h ▸ hz), data, _, w, ns', d, w',
        hhas data hdata, hc, hb, hY, hf.trans ?_⟩
      exact sameBare_iff.mpr ⟨hns, rfl, rfl⟩
    · exact absurd (List.mem_singleton.mp hp ▸ hz) hpnew

end Registry
end Atmark
