import Atmark.Proofs.Parse.Include

/-! Which contents a compilation can read. Only names in the files that the templates reach are looked up
(`Settings.Mentions`): while these are parsed, or later, when the code is made, for contents that must not be
kept in the cache. What is left for later comes out of the cache too, so this is said of the fragments in it
along with the nodes (`Registry.parseSource_postpones`). -/
namespace Atmark
open Node Directive

/-- The directives that take the content of a file, at once or later. -/
def Directive.contentNames : List Text := readingNames ++ laterNames

theorem Directive.Names.mono {ds ds' : List Text} {tokens : List Token} {name : Text} (h : Names ds tokens name)
    (hds : ds ⊆ ds') : Names ds' tokens name := by
  obtain ⟨id, ts, hpart, hid, hpath⟩ := h
  exact ⟨id, ts, hpart, hds hid, hpath⟩

theorem Directive.templateNames_subset : templateNames ⊆ readingNames := by
  simp [templateNames, readingNames]

namespace Settings

/-- The file is one that some of the templates reach. -/
def Reached (settings : Settings) (templates : List Text) (file : Text) : Prop :=
  ∃ p ∈ templates, settings.Reaches p file

/-- In a file that some of the templates reach, the name follows one of the directives. -/
def Mentions (settings : Settings) (templates directives : List Text) (file name : Text) : Prop :=
  settings.Reached templates file ∧
    ∃ src, settings.Has file src ∧ Directive.Names directives (Token.ofSource src) name

variable {settings : Settings} {templates : List Text}

theorem Mentions.mono {ds ds' : List Text} {file name : Text} (h : settings.Mentions templates ds file name)
    (hds : ds ⊆ ds') : settings.Mentions templates ds' file name := by
  obtain ⟨hfile, src, hsrc, hnames⟩ := h
  exact ⟨hfile, src, hsrc, hnames.mono hds⟩

theorem Reached.included {file path : Text} (h : settings.Reached templates file)
    (hincl : settings.Includes file path) : settings.Reached templates path := by
  obtain ⟨p, hp, hreach⟩ := h
  exact ⟨p, hp, hreach.tail hincl⟩

/-- What may be left for later while the templates are compiled. -/
def Later (settings : Settings) (templates : List Text) : Option Position → Text → Text → Bool → Prop :=
  fun _ name file _ => settings.Mentions templates Directive.laterNames file name

/-- The fragments of the cache leave nothing else for later. -/
def Awaits (settings : Settings) (templates : List Text) (w : World) : Prop :=
  ∀ c key f, w.cache = some c → c.get? key = some f → Postpone (settings.Later templates) f.nodes

theorem Awaits.put {w : World} {key : Text} {f : Fragment} (h : settings.Awaits templates w)
    (hf : Postpone (settings.Later templates) f.nodes) :
    settings.Awaits templates { w with cache := w.cache.map (·.put key f) } := by
  intro c key' g hc hg
  obtain ⟨c₀, hc₀, rfl⟩ := Option.map_eq_some_iff.mp hc
  rw [Cache.get?_put] at hg
  split at hg
  · cases hg
    exact hf
  · exact h c₀ key' g hc₀ hg

end Settings

/-! ## The run over a file -/

/-- Contents are left for later by their names in the files, and the cache knows no others. -/
def Contract.postponing (settings : Settings) (templates includers : List Text) {file data : Text}
    (hfile : settings.Reached templates file) (hdata : settings.Has file data) : Contract where
  settings := settings
  path := file
  includers := includers
  tokens := Token.ofSource data
  error _ := True
  later := settings.Later templates
  inv s := settings.Awaits templates s.world
  pending _ s := settings.Awaits templates s.world
  stopped _ _ := trivial
  unread _ _ _ _ := trivial
  fault _ _ _ := trivial
  postponed _ hnames _ := ⟨hfile, data, hdata, hnames⟩
  framed _ _ hs _ _ hcache := fun c key f hc => hs c key f (hcache ▸ hc)
  pendingFramed _ _ _ hs _ _ hcache := fun c key f hc => hs c key f (hcache ▸ hc)
  note _ _ hs := hs
  directive _ _ _ _ hs := hs
  merge hs := hs
  hit hs hc hget := ⟨hs _ _ _ hc hget, hs⟩
  put _ _ hf hs := hs.put hf
  pendingPut _ _ hf hs := hs.put hf

/-- What a template leaves for later is named in its file or in one of those that it includes. -/
theorem Registry.parseSource_postpones {r : Registry} (hobeys : ∀ C : Contract, C.Obeys r)
    (hturns : r.directives.any (·.rereads) = false) {settings : Settings} {templates includers : List Text}
    {file data : Text} {n : Nat} {w w' : World} {ns : List Node} {d : Declarations}
    (hfile : settings.Reached templates file) (hdata : settings.Has file data)
    (hw : settings.Awaits templates w) (hp : r.parseSource settings n includers file data w = .ok (ns, d) w') :
    Postpone (settings.Later templates) ns ∧ settings.Awaits templates w' := by
  induction n generalizing includers file data w w' ns d with
  | zero => cases hp
  | succ n ih =>
    cases hlex : Token.lex data with
    | error e =>
      simp only [Registry.parseSource, hlex] at hp
      cases hp
    | ok p =>
      obtain ⟨tokens, trailing⟩ := p
      have htokens : tokens = Token.ofSource data := by rw [Token.ofSource, hlex]
      subst htokens
      have hembeds : (Contract.postponing settings templates includers hfile hdata).Embeds
          (r.embedIn settings n includers file) := by
        refine Contract.embeds_of (fun _ _ _ _ => trivial) ?_
        intro name file' data' hnames hleads _ s _ hs
        dsimp only [Contract.postponing]
        cases hinner : r.parseSource settings n (includers ++ [file]) file' data' s.world with
        | error e w' => trivial
        | ok out w' =>
          have hincl : settings.Includes file file' :=
            ⟨data, name, data', hdata, hnames.mono templateNames_subset, hleads⟩
          exact ih (hfile.included hincl) hleads.has hs hinner
      have hmeets := Contract.parseSource_meets (hobeys _) hturns hlex hembeds (w := w) hw
      dsimp only [Contract.postponing] at hmeets
      rw [hp] at hmeets
      obtain ⟨hns, s, hs, -, rfl⟩ := hmeets
      exact ⟨hns, hs⟩

end Atmark
