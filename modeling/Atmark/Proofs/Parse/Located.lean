import Atmark.Code.Lower
import Atmark.Proofs.Parse.Include

/-! Where errors point to. Whatever fault ends the parse of a template, or the reading of the contents that it
leaves for later, is reported in the root file or in a file below it, at a token of that file or where it is
not lexed (`parseSource_located`, `ofNodes_located`); the bounds on nesting and on turns are never met. -/
namespace Atmark
open Node ParseM

/-- The position is that of a token of the source, at any depth, or the source is not lexed because of the
fault there. -/
def Fault.LiesIn (src : Text) (pos : Position) (cause : Fault) : Prop :=
  Token.Placed (Token.ofSource src) (some pos) ∨ Token.lex src = .error (.fault [] pos cause)

/-- A fault lies in bytes of its source, and its line and its column are those of the first one. -/
theorem Fault.LiesIn.spans {src : Text} {pos : Position} {cause : Fault} (h : cause.LiesIn src pos) :
    pos.Spans src := by
  have hlex := Token.lex_spanned src
  unfold Fault.LiesIn Token.ofSource at h
  cases hl : Token.lex src with
  | ok p =>
    rw [hl] at h hlex
    obtain ⟨t, ht, hpos⟩ | h := h
    · obtain ⟨p, hp, hspans⟩ := hlex t ht
      cases hp.symm.trans hpos
      exact hspans
    · cases h
  | error e =>
    rw [hl] at h hlex
    obtain ⟨t, ht, -⟩ | h := h
    · cases ht with
      | here ht => cases ht
      | within ht => cases ht
    · obtain ⟨p, c, he, hspans, -⟩ := hlex
      cases h
      cases he
      exact hspans

namespace Settings

/-- The file below some others names one of them or itself, which is reported as the chain from there on. -/
def Repeats (settings : Settings) (includers : List Text) (file data : Text) (chain : List Text) : Prop :=
  ∃ name again found, Directive.Names Directive.templateNames (Token.ofSource data) name ∧
    settings.Leads file name again found ∧ again ∈ includers ++ [file] ∧
    chain = (includers ++ [file]).dropWhile (· ≠ again) ++ [again]

/-- The fault lies in the source of the file, and a cycle is there. -/
def FaultAt (settings : Settings) (includers : List Text) (file data : Text) (pos : Position)
    (cause : Fault) : Prop :=
  cause.LiesIn data pos ∧ ∀ chain, cause = .cycle chain → settings.Repeats includers file data chain

/-- The fault is reported in the root template or in a file below it. -/
def Reported (settings : Settings) (path src file : Text) (pos : Position) (cause : Fault) : Prop :=
  ∃ includers data, Included settings path src includers file data ∧
    settings.FaultAt includers file data pos cause

/-- The content that is left for later is named in the root template or in a file below it, and the position
is that of a token there. -/
def Left (settings : Settings) (path src : Text) (pos : Option Position) (file : Text) : Prop :=
  ∃ includers data, Included settings path src includers file data ∧
    Token.Placed (Token.ofSource data) pos

end Settings

/-! ## One file -/

/-- The run over a file ends with a fault of this file, whose path is still to be told, or with one of a file
below it. -/
def Settings.Locates (settings : Settings) (path src : Text) (includers : List Text) (file data : Text)
    (e : Error) : Prop :=
  e ≠ .exhausted ∧ ∀ p pos cause, e = .fault p pos cause →
    if p = [] then settings.FaultAt includers file data pos cause
    else settings.Reported path src p pos cause

section File
variable {settings : Settings} {path src : Text} {includers : List Text} {file data trailing : Text}

/-- A fault at a token of the file. -/
theorem Settings.Locates.placed {pos : Option Position} {cause : Fault}
    (hlex : Token.lex data = .ok (Token.ofSource data, trailing))
    (hpos : Token.Placed (Token.ofSource data) pos)
    (hc : ∀ chain, cause = .cycle chain → settings.Repeats includers file data chain) :
    settings.Locates path src includers file data (.at? pos cause) := by
  have hspanned := Token.lex_spanned data
  rw [hlex] at hspanned
  obtain ⟨t, ht, rfl⟩ := hpos
  obtain ⟨p, hp, -⟩ := hspanned t ht
  refine ⟨by simp [Error.at?], ?_⟩
  rintro _ _ _ ⟨⟩
  rw [if_pos rfl, hp]
  exact ⟨.inl ⟨t, ht, hp⟩, hc⟩

/-- Once its path is told, the fault of a file is reported there. -/
theorem Settings.Locates.told {e : Error} (he : settings.Locates path src includers file data e)
    (h : Included settings path src includers file data) :
    e.withPath file ≠ .exhausted ∧ ∀ p pos cause, e.withPath file = .fault p pos cause →
      settings.Reported path src p pos cause := by
  obtain ⟨hbound, hfault⟩ := he
  cases e with
  | fault q pos cause =>
    refine ⟨by simp [Error.withPath], ?_⟩
    rintro _ _ _ ⟨⟩
    have hq := hfault q pos cause rfl
    cases q with
    | nil => exact ⟨includers, data, h, hq⟩
    | cons => exact hq
  | exhausted => exact absurd rfl hbound
  | _ => simp [Error.withPath]

/-- Every fault lies where it is reported. Where the contents come from that are left for later is only known
without a cache. -/
def Contract.located (h : Included settings path src includers file data)
    (hlex : Token.lex data = .ok (Token.ofSource data, trailing)) (uncached : Prop) : Contract where
  settings := settings
  path := file
  includers := includers
  tokens := Token.ofSource data
  error := settings.Locates path src includers file data
  later pos _ includer _ := uncached → settings.Left path src pos includer
  inv s := uncached → s.world.cache = none
  pending _ s := uncached → s.world.cache = none
  stopped := by simp [Settings.Locates]
  unread := by simp [Settings.Locates]
  fault hpos cause hc := .placed hlex hpos fun chain he => (hc chain he).elim
  postponed hpos _ _ _ := ⟨includers, data, h, hpos⟩
  framed s s' hs _ _ hcache hu := hcache.trans (hs hu)
  pendingFramed f s s' hs _ _ hcache hu := hcache.trans (hs hu)
  note _ _ hs := hs
  directive _ _ _ _ hs := hs
  merge hs := hs
  hit {s c key f} hs hc _ := by
    refine ⟨?_, hs⟩
    by_cases hu : uncached
    · rw [hs hu] at hc
      cases hc
    · exact Postpone.of_forall fun _ _ _ _ hu' => (hu hu').elim
  put key f _ hs hu := by simp [State.cached, hs hu]
  pendingPut key f _ hs hu := by simp [State.cached, hs hu]

end File

/-! ## All files -/

/-- A path is told to every fault of a file that has one. -/
theorem Registry.parseSource_path {r : Registry} {settings : Settings} {n : Nat} {includers : List Text}
    {path src : Text} {w w' : World} {p : Text} {pos : Position} {cause : Fault}
    (h : r.parseSource settings n includers path src w = .error (.fault p pos cause) w')
    (hpath : path ≠ []) : p ≠ [] := by
  have htold {e : Error} (he : e.withPath path = .fault p pos cause) : p ≠ [] := by
    cases e with
    | fault q =>
      cases he
      cases q with
      | nil => simpa using hpath
      | cons => simp
    | _ => cases he
  cases n with
  | zero => cases h
  | succ n =>
    unfold parseSource at h
    split at h
    · exact htold (EStateM.Result.error.inj h).1
    · dsimp only at h
      split at h
      · cases h
      · exact htold (EStateM.Result.error.inj h).1

/-- A file below others is parsed without meeting a bound, if no chain below the root is longer than the
bound allows; its faults are reported where they lie. -/
theorem Included.parseSource_located {settings : Settings} {path src : Text} {includers : List Text}
    {file data : Text} (h : Included settings path src includers file data) (uncached : Prop) (n : Nat)
    (hroom : ∀ includers' f d, Included settings path src includers' f d →
      includers'.length < n + includers.length) {w : World} (hw : uncached → w.cache = none) :
    match Registry.standard.parseSource settings n includers file data w with
    | .ok (ns, _) w' =>
        Postpone (fun pos _ f _ => uncached → settings.Left path src pos f) ns ∧
          (uncached → w'.cache = none)
    | .error e _ => e ≠ .exhausted ∧ ∀ p pos cause, e = .fault p pos cause →
        settings.Reported path src p pos cause := by
  induction n generalizing includers file data w with
  | zero => exact absurd (hroom _ _ _ h) (by omega)
  | succ n ih =>
    cases hlex : Token.lex data with
    | error e =>
      have hfault := Token.lex_spanned data
      rw [hlex] at hfault
      obtain ⟨pos, cause, rfl, -, hcause⟩ := hfault
      simp only [Registry.parseSource, hlex]
      refine ⟨by simp [Error.withPath], ?_⟩
      rintro _ _ _ ⟨⟩
      exact ⟨includers, data, h, .inr hlex, fun chain he => (hcause chain he).elim⟩
    | ok p =>
      obtain ⟨tokens, trailing⟩ := p
      have htokens : tokens = Token.ofSource data := by rw [Token.ofSource, hlex]
      subst htokens
      have hembeds : (Contract.located h hlex uncached).Embeds
          (Registry.standard.embedIn settings n includers file) := by
        refine Contract.embeds_of ?_ ?_
        · intro name pos again found hpos hnames hleads hmem
          refine .placed hlex hpos fun chain he => ?_
          exact ⟨name, again, found, hnames, hleads, hmem, (Fault.cycle.inj he).symm⟩
        · intro name file' data' hnames hleads hnew s _ hs
          have hnext := ih (h.next hnames hleads hnew) (fun _ _ _ h' => by
            have := hroom _ _ _ h'
            simp only [List.length_append, List.length_cons, List.length_nil]
            omega) hs
          change match Registry.standard.parseSource settings n (includers ++ [file]) file' data' s.world with
            | .ok (ns, d) w => _
            | .error e _ => _
          cases hp : Registry.standard.parseSource settings n (includers ++ [file]) file' data' s.world with
          | ok out w' =>
            rw [hp] at hnext
            exact hnext
          | error e w' =>
            rw [hp] at hnext
            refine ⟨hnext.1, fun p pos cause he => ?_⟩
            rw [if_neg (Registry.parseSource_path (he ▸ hp) hleads.has.path_ne_nil)]
            exact hnext.2 p pos cause he
      have hmeets := Contract.parseSource_meets (Contract.standard_obeys _) rfl hlex hembeds (w := w) hw
      change match Registry.standard.parseSource settings (n + 1) includers file data w with
        | .ok (ns, d) w' => _
        | .error e _ => _ at hmeets
      cases hp : Registry.standard.parseSource settings (n + 1) includers file data w with
      | ok out w' =>
        rw [hp] at hmeets
        obtain ⟨hpostpone, s, hs, -, rfl⟩ := hmeets
        exact ⟨hpostpone, hs⟩
      | error e w' =>
        rw [hp] at hmeets
        obtain ⟨e', he', rfl⟩ := hmeets
        exact he'.told h

/-! ## Contents that are left for later -/

/-- An error comes from the first step or from what follows it. -/
theorem bind_eq_error {σ α β : Type} {m : EStateM Error σ α} {f : α → EStateM Error σ β} {e : Error}
    {s s' : σ} (h : (m >>= f) s = .error e s') :
    m s = .error e s' ∨ ∃ a s₁, m s = .ok a s₁ ∧ f a s₁ = .error e s' := by
  simp only [Bind.bind, EStateM.bind] at h
  split at h
  · rename_i a s₁ hm
    exact .inr ⟨a, s₁, hm, h⟩
  · rename_i e₁ s₁ hm
    cases h
    exact .inl hm

theorem bind_of_error {σ α β : Type} {m : EStateM Error σ α} {f : α → EStateM Error σ β} {e : Error}
    {s s' : σ} (h : m s = .error e s') : (m >>= f) s = .error e s' := by
  simp only [Bind.bind, EStateM.bind, h]

namespace Code
variable {settings : Settings} {E : Error → Prop}

/-- A fault in reading a content is reported where the content is named. -/
theorem externalText_fault {pos : Option Position} {name includer : Text} {markdown : Bool} {w w' : World}
    {p : Text} {q : Position} {cause : Fault}
    (h : externalText settings pos name includer markdown w = .error (.fault p q cause) w') :
    p = includer ∧ q = pos.getD .zero ∧ ∀ chain, cause ≠ .cycle chain := by
  unfold externalText at h
  rcases hread : Content.read settings.files includer name pos with ⟨result, tried⟩
  -- the record of a fallback and the record of the content end with no error
  cases result with
  | error e =>
    have herror : e.withPath includer = .fault p q cause := by
      simp only [hread] at h
      cases tried <;> exact (EStateM.Result.error.inj h).1
    obtain ⟨c, rfl, hc⟩ | ⟨_, _, _, rfl⟩ := Content.read_error (by rw [hread])
    · cases herror
      exact ⟨rfl, rfl, hc⟩
    · cases herror
  | ok found =>
    cases markdown with
    | false =>
      simp only [hread] at h
      cases tried <;> cases h
    | true =>
      cases hhtml : settings.markdown found.1 with
      | ok html =>
        simp only [hread, Content.renderMarkdown, hhtml] at h
        cases tried <;> cases h
      | error reason =>
        have herror : (Error.at? pos (.markdown reason)).withPath includer = .fault p q cause := by
          simp only [hread, Content.renderMarkdown, hhtml] at h
          cases tried <;> exact (EStateM.Result.error.inj h).1
        cases herror
        exact ⟨rfl, rfl, by simp⟩

/-- Whatever ends the reading of the node is one of these errors. -/
def failsWith (settings : Settings) (E : Error → Prop) : Node → Prop
  | .external pos name includer markdown => ∀ w e w',
      externalText settings pos name includer markdown w = .error e w' → E e
  | _ => True

mutual

theorem resolveNode_error : (n : Node) → failsWith settings E n →
    (∀ l ∈ n.lists, AllWithin (failsWith settings E) l) → ∀ {w e w'},
    resolveNode settings n w = .error e w' → E e
  | .external pos name includer markdown, hn, _, w, e, w', h => by
    rw [resolveNode] at h
    rcases bind_eq_error h with h | ⟨_, _, _, h⟩
    · exact hn _ _ _ h
    · cases h
  | .group f ns, _, hl, w, e, w', h
  | .attrValue pos v ns, _, hl, w, e, w', h
  | .write pos ns, _, hl, w, e, w', h
  | .closure type f ns, _, hl, w, e, w', h
  | .define pos name ns, _, hl, w, e, w', h => by
    rw [resolveNode] at h
    rcases bind_eq_error h with h | ⟨_, _, _, h⟩
    · exact resolve_error ns (hl ns (by simp [lists])) h
    · cases h
  | .ident _, _, _, _, _, _, h | .literal _, _, _, _, _, _, h | .punct _, _, _, _, _, _, h
  | .tagStart .., _, _, _, _, _, h | .tagVoid .., _, _, _, _, _, h | .tagEnd .., _, _, _, _, _, h
  | .closeStart .., _, _, _, _, _, h | .closeSelf .., _, _, _, _, _, h
  | .closeVoid .., _, _, _, _, _, h | .attrName .., _, _, _, _, _, h
  | .attrEquals _, _, _, _, _, _, h | .text .., _, _, _, _, _, h => by
    cases h

theorem resolve_error : (ns : List Node) → AllWithin (failsWith settings E) ns → ∀ {w e w'},
    resolve settings ns w = .error e w' → E e
  | [], _, _, _, _, h => by cases h
  | n :: ns, hns, w, e, w', h => by
    obtain ⟨hn, hl, hns⟩ := allWithin_cons.mp hns
    rw [resolve] at h
    rcases bind_eq_error h with h | ⟨n', w₁, -, h⟩
    · exact resolveNode_error n hn hl h
    rcases bind_eq_error h with h | ⟨_, _, _, h⟩
    · exact resolve_error ns hns h
    · cases h

end
/-- A fault in reading what was left for later is reported where that was named. -/
theorem ofNodes_located {path src : Text} {ns : List Node} {w w' : World} {p : Text} {pos : Position}
    {cause : Fault} (hns : Postpone (fun pos _ file _ => settings.Left path src pos file) ns)
    (h : ofNodes settings ns w = .error (.fault p pos cause) w') :
    settings.Reported path src p pos cause := by
  have hfails : AllWithin (failsWith settings fun e => ∀ p pos cause, e = .fault p pos cause →
      settings.Reported path src p pos cause) ns := by
    intro l hl n hn
    cases n with
    | external at_ name includer markdown =>
      rintro w e w' he p pos cause rfl
      obtain ⟨includers, data, hincl, hplaced⟩ := hns l hl _ hn
      obtain ⟨rfl, rfl, hcause⟩ := externalText_fault he
      obtain ⟨q, rfl⟩ := hplaced.exists_eq
      exact ⟨includers, data, hincl, .inl hplaced, fun chain hc => (hcause chain hc).elim⟩
    | _ => trivial
  rcases bind_eq_error h with h | ⟨_, _, _, h⟩
  · exact resolve_error ns hfails h p pos cause rfl
  · cases h

end Code

/-! ## Templates -/

/-- The fault is at a token of the root file or of a file that it includes, directly or through others, or
where that file is not lexed. It spans bytes of that file and has the line and the column of the first one. -/
def Settings.Pinpoints (settings : Settings) (path src file : Text) (pos : Position) (cause : Fault) : Prop :=
  ∃ includers data, Included settings path src includers file data ∧ cause.LiesIn data pos ∧ pos.Spans data

theorem Settings.Reported.pinpoints {settings : Settings} {path src file : Text} {pos : Position}
    {cause : Fault} (h : settings.Reported path src file pos cause) :
    settings.Pinpoints path src file pos cause := by
  obtain ⟨includers, data, hincl, hlies, -⟩ := h
  exact ⟨includers, data, hincl, hlies, hlies.spans⟩

namespace Template

/-- A file whose second line opens a group that is not closed, after a string with a letter of two bytes. -/
def sampleInclude : Failing where
  settings := { files := some ⟨[(utf8 "b.html", utf8 "\n\"é\" (")], false⟩, markdown := .ok }
  path := utf8 "a.html"
  src := utf8 "@rusthtmlfile \"b.html\""
  expects e := (e.faultIn? (utf8 "b.html")).any fun f => f.1 = ⟨2, 5, 6, 6⟩
  fails := by decide +kernel

end Template
end Atmark
