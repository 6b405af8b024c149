import Atmark.Proofs.Cache.Coherent
import Atmark.Proofs.Parse.Located

/-! Includes come to an end. A file is only parsed below files that it is not one of: a parser that gives up
otherwise does the same (`parseOnce_eq`). So no more files stand above each other than can be opened, and an
include is refused exactly if it leads to a file above it (`templateFile_cycle_iff`). -/
namespace Atmark
open ParseM

/-- The files of a cycle, the first of them again at the end. -/
def Fault.chain? : Fault → Option (List Text)
  | .cycle chain => some chain
  | _ => none

theorem Fault.chain?_eq_some {cause : Fault} {chain : List Text} :
    cause.chain? = some chain ↔ cause = .cycle chain := by
  cases cause <;> simp [chain?]

/-! ## Each file once -/

/-- Gives up on a file that is being parsed already. -/
def ParseM.once (embed : Text → Text → ParseM Fragment) (file src : Text) : ParseM Fragment := do
  let s ← get
  if (s.includers ++ [s.path]).contains file then throw .exhausted
  embed file src

theorem ParseM.once_new (embed : Text → Text → ParseM Fragment) {file : Text} (src : Text) {s : State}
    (h : file ∉ s.includers ++ [s.path]) : once embed file src s = embed file src s := by
  have hcontains : (s.includers ++ [s.path]).contains file = false := by simpa using h
  simp only [once, bind_get, hcontains]
  rfl

/-- The tools that give up on a file that is being parsed already. -/
def Tools.once (t : Tools) : Tools := { t with embed := ParseM.once t.embed }

namespace Directive

/-- The check before a template is parsed makes the other one superfluous. -/
theorem embedTemplate_once (t : Tools) (pos : Option Position) (src file : Text) :
    embedTemplate t.once pos src file = embedTemplate t pos src file := by
  funext s
  by_cases h : file ∈ s.includers ++ [s.path]
  · rw [Pairing.embedTemplate_cycle _ _ _ h, Pairing.embedTemplate_cycle _ _ _ h]
  · rw [Pairing.embedTemplate_new h, Pairing.embedTemplate_new h]
    exact once_new t.embed src h

theorem templateFile_once (cached : Bool) (t : Tools) (id : Ident) :
    templateFile cached t.once id = templateFile cached t id := by
  unfold templateFile
  have hembed (pos : Option Position) : embedTemplate t.once pos = embedTemplate t pos := by
    funext src file
    exact embedTemplate_once t pos src file
  simp only [hembed]
  rfl

end Directive

/-! ## The rest of the parser does not notice -/

namespace Tools
variable (t : Tools)

@[simp] theorem settings_once : t.once.settings = t.settings := rfl
@[simp] theorem turns_once : t.once.turns = t.turns := rfl
@[simp] theorem parse_once : t.once.parse = t.parse := rfl
@[simp] theorem code_once : t.once.code = t.code := rfl
@[simp] theorem group_once : t.once.group = t.group := rfl
@[simp] theorem region_once : t.once.region = t.region := rfl

@[simp] theorem selectors_once (ts : List Token) : t.once.selectors ts = t.selectors ts := by
  fun_induction Tools.selectors t ts with
  | case1 => rfl
  | case2 tok ts ihDot ihColons ih =>
    conv => lhs; unfold Tools.selectors
    simp only [region_once, ih]
    -- the tokens after a dot or two colons are known once their heads are
    rcases ts with _ | ⟨_ | _ | _ | _, _ | ⟨_ | _ | _ | _, ts⟩⟩ <;> simp only at ihDot ihColons <;>
      simp only [ihDot, ihColons]

@[simp] theorem expressionFrom_once (id : Ident) : t.once.expressionFrom id = t.expressionFrom id := by
  simp only [expressionFrom, selectors_once]

@[simp] theorem expression_once : t.once.expression = t.expression := by
  simp only [expression, expressionFrom_once]

@[simp] theorem attrValue_once (tag attr : Text) (tok : Token) (ts : List Token) :
    t.once.attrValue tag attr tok ts = t.attrValue tag attr tok ts := by
  simp only [attrValue, valueExpression, expression_once, region_once]

@[simp] theorem attributes_once (lt : Option Position) (tag : Text) :
    t.once.attributes lt tag = t.attributes lt tag := by
  have hwithin (n : Nat) (r : TagReading) (focus : TagFocus) :
      t.once.attributesWithin lt tag n r focus = t.attributesWithin lt tag n r focus := by
    induction n generalizing r focus with
    | zero => rfl
    | succ n ih => simp only [attributesWithin, attrValue_once, ih]
  simp only [attributes, hwithin]

end Tools

namespace Directive
variable (t : Tools) (id : Ident)

theorem elseBranches_once (n : Nat) : elseBranches t.once n = elseBranches t n := by
  induction n with
  | zero => rfl
  | succ n ih =>
    unfold elseBranches
    rw [ih]
    rfl

theorem condition_once : condition t.once id = condition t id := by
  unfold condition
  simp only [elseBranches_once]
  rfl

end Directive

namespace Registry

/-- The directives do not notice the check. -/
def Wary (r : Registry) : Prop := ∀ d ∈ r.directives, ∀ t id, d.run t.once id = d.run t id

theorem standard_wary : Registry.standard.Wary := by
  intro d hd t id
  simp only [Registry.standard, builtinDirectives, List.mem_cons, List.not_mem_nil, or_false] at hd
  rcases hd with rfl | rfl | rfl | rfl | rfl | rfl | rfl | rfl | rfl | rfl | rfl | rfl | rfl | rfl | rfl |
    rfl | rfl | rfl | rfl | rfl | rfl | rfl | rfl
  all_goals first | exact Directive.templateFile_once _ t id | exact Directive.condition_once t id | rfl

section Loop
variable {r : Registry} (hr : r.Wary) (t : Tools)
include hr

theorem marker_once (m : Token) : r.marker t.once m = r.marker t m := by
  have hrun {name : Text} {d : Directive} (hd : r.directive? name = some d) (marker : Option Position)
      (id : Ident) : runDirective t.once d marker id = runDirective t d marker id := by
    simp only [runDirective, hr d (List.mem_of_find?_eq_some hd), Tools.expressionFrom_once]
  have hafter (marker : Option Position) (next : Token) :
      r.afterMarker t.once marker next = r.afterMarker t marker next := by
    cases next with
    | ident id =>
      simp only [afterMarker, Tools.expression_once]
      cases hd : r.directive? id.name with
      | some d => exact hrun hd marker id
      | none => rfl
    | _ => simp only [afterMarker, Tools.expression_once, Tools.region_once]
  simp only [marker, gluedToMarker, hafter]

theorem tagEntry_once (lt : Punct) (ts : List Token) : r.tagEntry t.once lt ts = r.tagEntry t lt ts := by
  have hraw (name : Text) (n : Nat) : r.rawTextWithin t.once name n = r.rawTextWithin t name n := by
    induction n with
    | zero => rfl
    | succ n ih => simp only [rawTextWithin, marker_once hr, ih]
  simp only [tagEntry, element, children, hraw, Tools.attributes_once, Tools.parse_once,
    Tools.turns_once, Tools.settings_once]

theorem turn_once : r.turn t.once = r.turn t := by
  have hgoOn : goOn t.once = goOn t := rfl
  simp only [turn, hgoOn, marker_once hr, tagEntry_once hr, Tools.expression_once, Tools.group_once,
    Tools.code_once]

theorem loop_once (settings : Settings) (embed : Text → Text → ParseM Fragment) (n : Nat) :
    r.loop settings (ParseM.once embed) n = r.loop settings embed n := by
  induction n with
  | zero => rfl
  | succ n ih =>
    unfold loop
    rw [ih]
    exact turn_once hr ⟨settings, fun name => (r.directive? name).isSome, r.loop settings embed n, n, embed⟩

end Loop

/-- Parses as `parseSource` does, but gives up when a file is to be parsed that is being parsed already. -/
def parseOnce (r : Registry) (settings : Settings) :
    Nat → List Text → Text → Text → WorldM (List Node × Declarations)
  | 0, _, _, _ => throw .exhausted
  | n + 1, includers, path, src => fun w =>
    match Token.lex src with
    | .error e => .error (e.withPath path) w
    | .ok (tokens, trailing) =>
      let embed := ParseM.once fun file src => do
        let (nodes, declared) ← ofWorld (r.parseOnce settings n (includers ++ [path]) file src)
        return { nodes, imports := declared.imports, injects := declared.injects }
      let start (w : World) : State := { world := w, path, includers, stream := .ofTokens tokens }
      match WorldM.ofParse start (r.readTokens settings embed (r.turns w tokens) tokens trailing) w with
      | .ok (_, s) w => .ok (s.sink.reverse, s.declared) w
      | .error e w => .error (e.withPath path) w

/-- No file is parsed that is being parsed already. -/
theorem parseOnce_eq {r : Registry} (hr : r.Wary) (settings : Settings) (n : Nat) (includers : List Text)
    (path src : Text) :
    r.parseOnce settings n includers path src = r.parseSource settings n includers path src := by
  induction n generalizing includers path src with
  | zero => rfl
  | succ n ih =>
    funext w
    unfold parseOnce
    cases hlex : Token.lex src with
    | error e => simp [parseSource, hlex]
    | ok p =>
      rw [parseSource_lexed r settings n includers path src w hlex]
      simp only [ih, readTokens, loop_once hr]
      rfl

end Registry

/-! ## Cycles -/

namespace Directive
variable {t : Tools} {r : Registry} {n : Nat} {includers : List Text} {path name : Text}
  {pos : Option Position} {s s' : State} {p : Position} {chain : List Text}

/-- What cannot be read ends the include. -/
theorem freshContent_unread (convert : Text → Text → ParseM Fragment) {e : Error}
    (h : (Content.read t.settings.files s.path name pos).1 = .error e) :
    ∃ s', freshContent t name pos convert s = .error e s' := by
  rcases hcontent : Content.read t.settings.files s.path name pos with ⟨result, tried⟩
  rw [hcontent] at h
  cases h
  simp only [freshContent, readContent, bind_assoc, ParseM.bind_get, hcontent]
  cases tried <;> exact ⟨_, rfl⟩

/-- What is read is converted, in a state with another log. -/
theorem freshContent_found (convert : Text → Text → ParseM Fragment) {file data : Text}
    (pos : Option Position) (h : t.settings.Leads s.path name file data) :
    ∃ s₁ : State, s₁.path = s.path ∧ s₁.includers = s.includers ∧
      freshContent t name pos convert s = convert data file s₁ := by
  obtain ⟨log, hfresh⟩ : ∃ log, freshContent t name pos convert s =
      convert data file { s with world := { s.world with log } } := Registry.freshContent_leads pos h
  exact ⟨{ s with world := { s.world with log } }, rfl, rfl, hfresh⟩

/-- A cycle below another file is reported with a path. -/
theorem embedIn_cycle {settings : Settings} {file data : Text} (hfile : file ≠ []) :
    r.embedIn settings n includers path file data s ≠ .error (.fault [] p (.cycle chain)) s' := by
  intro h
  simp only [Registry.embedIn, Bind.bind, EStateM.bind, ofWorld] at h
  cases hparse : r.parseSource settings n (includers ++ [path]) file data s.world with
  | ok out w =>
    rw [hparse] at h
    cases h
  | error e w =>
    rw [hparse] at h
    cases h
    exact Registry.parseSource_path hparse hfile rfl

/-- A template that is read and parsed leads to a file above this one exactly if that is reported. -/
theorem freshContent_cycle_iff (hembed : t.embed = r.embedIn t.settings n includers path) :
    (∃ s', freshContent t name pos (embedTemplate t pos) s = .error (.fault [] p (.cycle chain)) s') ↔
      ∃ file data, t.settings.Leads s.path name file data ∧ file ∈ s.includers ++ [s.path] ∧
        p = pos.getD .zero ∧ chain = (s.includers ++ [s.path]).dropWhile (· ≠ file) ++ [file] := by
  constructor
  · rintro ⟨s', h⟩
    cases hread : (Content.read t.settings.files s.path name pos).1 with
    | error e =>
      obtain ⟨s₁, hs₁⟩ := freshContent_unread (embedTemplate t pos) hread
      rw [hs₁] at h
      obtain ⟨cause, rfl, hcause⟩ | ⟨_, _, _, rfl⟩ := Content.read_error hread
      · cases h
        exact (hcause chain rfl).elim
      · cases h
    | ok found =>
      have hleads : t.settings.Leads s.path name found.2 found.1 := (Settings.leads_iff pos).mpr hread
      obtain ⟨s₁, hpath, hincluders, hfresh⟩ := freshContent_found (embedTemplate t pos) pos hleads
      rw [hfresh] at h
      rw [← hpath, ← hincluders]
      by_cases hmem : found.2 ∈ s₁.includers ++ [s₁.path]
      · rw [Pairing.embedTemplate_cycle t pos found.1 hmem] at h
        cases h
        exact ⟨_, _, hpath ▸ hleads, hmem, rfl, rfl⟩
      · rw [Pairing.embedTemplate_new hmem, hembed] at h
        exact (embedIn_cycle hleads.has.path_ne_nil h).elim
  · rintro ⟨file, data, hleads, hmem, rfl, rfl⟩
    obtain ⟨s₁, hpath, hincluders, hfresh⟩ := freshContent_found (embedTemplate t pos) pos hleads
    rw [← hpath, ← hincluders] at hmem ⊢
    rw [hfresh, Pairing.embedTemplate_cycle t pos data hmem]
    exact ⟨_, rfl⟩

/-- The template that the cache holds for a name. -/
def kept? (s : State) (name : Text) : Option Fragment :=
  match cacheKey? .template name s with
  | .ok (some (cache, key)) _ => cache.get? key
  | _ => none

theorem cacheKey?_eq_ok (kind : ContentKind) (name : Text) (s : State) :
    ∃ k, cacheKey? kind name s = .ok k s := by
  unfold cacheKey?
  rw [bind_get]
  cases s.world.cache with
  | none => exact ⟨_, rfl⟩
  | some c =>
    cases Path.isValidName name with
    | false => exact ⟨_, rfl⟩
    | true => exact ⟨_, rfl⟩

/-- What the cache holds ends with no error, and what it does not hold fails as without it. -/
theorem cachedContent_error_iff (convert : Text → Text → ParseM Fragment) (e : Error) :
    ∃ s₁ : State, s₁.path = s.path ∧ s₁.includers = s.includers ∧
      ((∃ s', cachedContent t .template name pos convert s = .error e s') ↔
        kept? s name = none ∧ ∃ s', freshContent t name pos convert s₁ = .error e s') := by
  obtain ⟨k, hk⟩ := cacheKey?_eq_ok .template name s
  simp only [cachedContent, kept?, Bind.bind, EStateM.bind, hk]
  cases k with
  | none => exact ⟨s, rfl, rfl, by simp⟩
  | some ck =>
    obtain ⟨cache, key⟩ := ck
    dsimp only
    cases cache.get? key with
    | some f =>
      refine ⟨s, rfl, rfl, ?_, ?_⟩
      · rintro ⟨s', h⟩
        cases h
      · rintro ⟨h, -⟩
        cases h
    | none =>
      refine ⟨s.noted "cache miss" [("key", key)], rfl, rfl, ?_, ?_⟩
      · rintro ⟨s', h⟩
        refine ⟨rfl, ?_⟩
        obtain h | ⟨_, _, hnote, h⟩ := bind_eq_error h
        · cases h
        cases hnote
        obtain h | ⟨_, _, _, h⟩ := bind_eq_error h
        · exact ⟨s', h⟩
        · cases h
      · rintro ⟨-, s', h⟩
        exact ⟨s', bind_of_error (m := freshContent t name pos convert) h⟩

/-- The states are about the same chain of files. -/
def Beside (s s' : State) : Prop := s'.path = s.path ∧ s'.includers = s.includers

/-- The name of an include is read without a look at the chain. -/
theorem pathArgument_beside (x : State) (id : Ident) :
    Meets (fun e => ∀ p chain, e ≠ .fault [] p (.cycle chain)) (Beside x) (pathArgument id)
      fun _ => Beside x := by
  have hskip (k : Nat) : Meets (fun e => ∀ p chain, e ≠ .fault [] p (.cycle chain)) (Beside x) (skip k)
      fun _ => Beside x := .modify fun _ h => h
  have hargument : Meets (fun e => ∀ p chain, e ≠ .fault [] p (.cycle chain)) (Beside x)
      (argument id "path") fun _ => Beside x := by
    refine .look fun s hs => ?_
    cases s.stream.peek with
    | none => exact .fail (by simp [Error.at?])
    | some tok =>
      refine .guard (by simp [Error.at?]) fun _ => ?_
      exact .bind (.modify fun _ h => h) fun _ => .pure fun _ h => h
  refine hargument.bind fun tok => ?_
  have hbare : Meets (fun e => ∀ p chain, e ≠ .fault [] p (.cycle chain)) (Beside x) (do
      let ts := pathTokens true (← rest)
      if ts.isEmpty then unexpected tok (.afterDirective id.name (utf8 "path"))
      skip ts.length
      return (Token.sourceOf ts, tok.pos)) fun _ => Beside x := by
    refine .look fun s hs => ?_
    refine .guard (by simp [Error.at?]) fun _ => ?_
    exact (hskip _).bind fun _ => .pure fun _ h => h
  cases tok with
  | literal l =>
    cases hl : l.isString with
    | true =>
      simp only [hl, if_true]
      refine (hskip 1).bind fun _ => ?_
      cases l.value? with
      | none => exact .fail (by simp [Error.at?])
      | some name => exact .pure fun _ h => h
    | false =>
      simp only [hl, Bool.false_eq_true, if_false]
      exact hbare
  | ident | punct | group => exact hbare

/-- An include that the cache does not answer ends with the error that lists the chain from some file on
exactly if it leads to that file, and that file is above this one or this one. -/
theorem templateFile_cycle_iff (hembed : t.embed = r.embedIn t.settings n includers path) (cached : Bool)
    (id : Ident) :
    (∃ s', templateFile cached t id s = .error (.fault [] p (.cycle chain)) s') ↔
      ∃ name pos s₁, pathArgument id s = .ok (name, pos) s₁ ∧ (cached = true → kept? s₁ name = none) ∧
        ∃ file data, t.settings.Leads s.path name file data ∧ file ∈ s.includers ++ [s.path] ∧
          p = pos.getD .zero ∧ chain = (s.includers ++ [s.path]).dropWhile (· ≠ file) ++ [file] := by
  have hpath := pathArgument_beside s id s ⟨rfl, rfl⟩
  have hcontent {name : Text} {pos : Option Position} {s₁ : State} (hs₁ : Beside s s₁) :
      (∃ s', (if cached then cachedContent t .template name pos (embedTemplate t pos)
        else freshContent t name pos (embedTemplate t pos)) s₁ = .error (.fault [] p (.cycle chain)) s') ↔
      (cached = true → kept? s₁ name = none) ∧ ∃ file data, t.settings.Leads s.path name file data ∧
        file ∈ s.includers ++ [s.path] ∧ p = pos.getD .zero ∧
        chain = (s.includers ++ [s.path]).dropWhile (· ≠ file) ++ [file] := by
    have hfresh {s₂ : State} (hs₂ : Beside s s₂) :
        (∃ s', freshContent t name pos (embedTemplate t pos) s₂ = .error (.fault [] p (.cycle chain)) s') ↔
          _ := freshContent_cycle_iff hembed
    cases cached with
    | false => simpa [hs₁.1, hs₁.2] using hfresh hs₁
    | true =>
      obtain ⟨s₂, hpath₂, hincluders₂, hiff⟩ :
          ∃ s₂ : State, s₂.path = s₁.path ∧ s₂.includers = s₁.includers ∧
            ((∃ s', cachedContent t .template name pos (embedTemplate t pos) s₁ =
              .error (.fault [] p (.cycle chain)) s') ↔ _) := cachedContent_error_iff _ _
      have hs₂ : Beside s s₂ := ⟨hpath₂.trans hs₁.1, hincluders₂.trans hs₁.2⟩
      simp only [if_true, hiff, hfresh hs₂, true_implies, hs₂.1, hs₂.2]
  have hsteps : templateFile cached t id = pathArgument id >>= fun a =>
      (if cached then cachedContent t .template a.1 a.2 (embedTemplate t a.2)
        else freshContent t a.1 a.2 (embedTemplate t a.2)) >>= fun f => do
      declare fun d => f.injects.foldl Declarations.addInject (f.imports.foldl Declarations.addImport d)
      emit f.nodes
      return .next := by
    cases cached <;> rfl
  rw [hsteps]
  constructor
  · rintro ⟨s', h⟩
    obtain h | ⟨⟨name, pos⟩, s₁, hname, h⟩ := bind_eq_error h
    · rw [h] at hpath
      exact (hpath p chain rfl).elim
    · rw [hname] at hpath
      -- only the content can fail, nothing after it
      obtain h | ⟨_, _, _, h⟩ := bind_eq_error h
      · exact ⟨name, pos, s₁, hname, (hcontent hpath).mp ⟨s', h⟩⟩
      · cases h
  · rintro ⟨name, pos, s₁, hname, h⟩
    rw [hname] at hpath
    obtain ⟨s', h⟩ := (hcontent hpath).mpr h
    refine ⟨s', ?_⟩
    simp only [Bind.bind, EStateM.bind, hname] at h ⊢
    simp only [h]

end Directive

/-! ## Templates -/

namespace Template
open Directive

/-- Whatever the files are and the cache holds: below the root no more files stand above each other than can
be opened, so that the bound that templates are parsed with is never met; no file is parsed that is being
parsed already; an include that the cache does not answer is refused exactly if it leads to a file above it;
and every cycle that is reported is in a file below the root and lists the chain from the file that is named
again. -/
theorem includes_end (settings : Settings) (path src : Text) (w : World) :
    (∀ n, settings.openable.length < n → ∀ w',
      Registry.standard.parseSource settings n [] path src w ≠ .error .exhausted w') ∧
    (∀ w', parse .standard settings path src w ≠ .error .exhausted w') ∧
    (∀ n, Registry.standard.parseOnce settings n [] path src w =
      Registry.standard.parseSource settings n [] path src w) ∧
    (∀ (t : Tools) n includers file cached id s p chain,
      t.embed = Registry.standard.embedIn t.settings n includers file →
      ((∃ s', templateFile cached t id s = .error (.fault [] p (.cycle chain)) s') ↔
        ∃ name pos s₁, pathArgument id s = .ok (name, pos) s₁ ∧ (cached = true → kept? s₁ name = none) ∧
          ∃ again data, t.settings.Leads s.path name again data ∧ again ∈ s.includers ++ [s.path] ∧
            p = pos.getD .zero ∧ chain = (s.includers ++ [s.path]).dropWhile (· ≠ again) ++ [again])) ∧
    ∀ p pos chain w', parse .standard settings path src w = .error (.fault p pos (.cycle chain)) w' →
      ∃ includers data, Included settings path src includers p data ∧
        settings.Repeats includers p data chain := by
  have hroot : Included settings path src [] path src := .root
  -- the cache may hold anything, so nothing is said of what is left for later
  have hrun (n : Nat) (hroom : ∀ includers f d, Included settings path src includers f d →
      includers.length < n) {e : Error} {w' : World}
      (h : Registry.standard.parseSource settings n [] path src w = .error e w') :
      e ≠ .exhausted ∧ ∀ p pos cause, e = .fault p pos cause →
        settings.Reported path src p pos cause := by
    have hlocated := hroot.parseSource_located False n hroom (w := w) False.elim
    rw [h] at hlocated
    exact hlocated
  have hparse {e : Error} {w' : World} (h : parse .standard settings path src w = .error e w') :
      Registry.standard.parseSource settings (includeBound settings) [] path src w = .error e w' := by
    obtain h | ⟨_, _, _, h⟩ := bind_eq_error h
    · exact h
    · cases h
  refine ⟨?_, ?_, ?_, ?_, ?_⟩
  · intro n hn w' h
    exact (hrun n (fun _ _ _ hi => Nat.lt_of_le_of_lt hi.length_le hn) h).1 rfl
  · intro w' h
    exact (hrun _ (fun _ _ _ hi => hi.length_lt_includeBound) (hparse h)).1 rfl
  · intro n
    rw [Registry.parseOnce_eq Registry.standard_wary]
  · intro t n includers file cached id s p chain hembed
    exact templateFile_cycle_iff hembed cached id
  · intro p pos chain w' h
    obtain ⟨includers, data, hincl, -, hcycle⟩ :=
      (hrun _ (fun _ _ _ hi => hi.length_lt_includeBound) (hparse h)).2 p pos _ rfl
    exact ⟨includers, data, hincl, hcycle chain rfl⟩

/-- Two files that include each other. -/
def sampleCycle : Failing where
  settings := { files := some ⟨[(utf8 "a.html", utf8 "@rusthtmlfile \"b.html\""),
    (utf8 "b.html", utf8 "@rusthtmlfile \"a.html\"")], false⟩, markdown := .ok }
  path := utf8 "a.html"
  src := utf8 "@rusthtmlfile \"b.html\""
  expects e := (e.faultIn? (utf8 "b.html")).any fun f =>
    f.2.chain? = some [utf8 "a.html", utf8 "b.html", utf8 "a.html"]
  fails := by decide +kernel

/-- The cycle is reported in the second file, from the first one on. -/
theorem includes_end_cycle : ∃ pos chain w',
    parse .standard sampleCycle.settings sampleCycle.path sampleCycle.src {} =
        .error (.fault (utf8 "b.html") pos (.cycle chain)) w' ∧
      chain = [utf8 "a.html", utf8 "b.html", utf8 "a.html"] ∧
      ∃ includers data, Included sampleCycle.settings sampleCycle.path sampleCycle.src includers
          (utf8 "b.html") data ∧
        sampleCycle.settings.Repeats includers (utf8 "b.html") data chain := by
  obtain ⟨e, w', hparse, he⟩ := WorldM.exists_of_failed sampleCycle.fails
  obtain ⟨pos, cause, rfl, hcause⟩ := Error.any_faultIn? he
  obtain rfl := Fault.chain?_eq_some.mp (of_decide_eq_true hcause)
  exact ⟨pos, _, w', hparse, rfl, (includes_end sampleCycle.settings _ _ _).2.2.2.2 _ _ _ _ hparse⟩

end Template
end Atmark
