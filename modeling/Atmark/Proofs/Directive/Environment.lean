import Atmark.Proofs.Directive.Growth
import Atmark.Proofs.Directive.Nesting
import Atmark.Proofs.Parse.Closing
import Atmark.Proofs.Parse.Trim
import Atmark.Proofs.Text.Case

/-! The environment element. Its hook keeps the children or drops them, as the names in the attributes say
(`Environment.nodes_of_run`), and what it keeps is added to the region around the element. The children have been
in a region of their own before; they are added whole unless their last directive leaves a line to be trimmed
that their first text then loses (`Registry.element_kept_iff`). -/
namespace Atmark
open Node ParseM

/-! ## The name of the element -/

theorem not_mem_tagSet {names : List Text} {name : Text}
    (h : names.all (fun n => (Text.runes n).length != (Text.runes name).length) = true) :
    (tagSet names).contains (Text.lower name) = false := by
  rw [List.contains_eq_mem, decide_eq_false_iff_not]
  intro hmem
  have hmem : Text.lower name ∈ (names.map Text.lower).eraseDups := by
    simpa [tagSet, Text.sort] using hmem
  obtain ⟨n, hn, heq⟩ := List.mem_map.mp (List.mem_eraseDups.mp hmem)
  have hlength := congrArg (fun t => (Text.runes t).length) heq
  simp only [Text.length_runes_lower] at hlength
  simpa [hlength] using List.all_eq_true.mp h n hn

theorem standard_environment {name : Text} (h : Text.sameFold name (utf8 "environment") = true) :
    Registry.standard.isVoid name = false ∧ Registry.standard.isRawText name = false := by
  have hlength : (Text.runes name).length = 11 := (Text.length_runes_of_sameFold h).trans (by decide)
  constructor
  · exact not_mem_tagSet (by rw [hlength]; decide)
  · exact not_mem_tagSet (by rw [hlength]; decide)

/-! ## The hook -/

namespace Environment

/-- The value of an attribute. -/
def value? (attributes : List Attribute) (attr : String) : Option Text :=
  ((attributes.find? (Text.sameFold ·.name (utf8 attr))).bind (·.value)).bind (·.static?)

/-- An attribute lists a name, whatever its case, among others parted by commas. -/
def Lists (attributes : List Attribute) (attr : String) (name : Text) : Prop :=
  ∃ value ∈ value? attributes attr, ∃ piece ∈ Text.splitOn 0x2C value,
    Text.trim piece ≠ [] ∧ Text.sameFold (Text.trim piece) name = true

/-- An element of these attributes is kept in the environment: it includes no names or that of the environment,
and it does not exclude that of the environment. -/
def Kept (env : Text) (attributes : List Attribute) : Prop :=
  ((∀ a ∈ attributes, Text.sameFold a.name (utf8 "include") = false) ∨ Lists attributes "include" env) ∧
    ¬ Lists attributes "exclude" env

instance (attributes : List Attribute) (attr : String) (name : Text) : Decidable (Lists attributes attr name) :=
  decidable_of_iff ((value? attributes attr).any fun value => (Text.splitOn 0x2C value).any fun piece =>
    Text.trim piece ≠ [] ∧ Text.sameFold (Text.trim piece) name = true) (by simp [Lists, Option.any_eq_true])

instance (env : Text) (attributes : List Attribute) : Decidable (Kept env attributes) :=
  inferInstanceAs (Decidable (_ ∧ _))

/-- What the hook looks at in an element. -/
def shown (env : Text) (attributes : List Attribute) (pos : Option Position) (children : List Node) :
    ElementContext :=
  { name := [], attributes, start := [], children, stop := [], pos, environment := env }

theorem isListed_names_iff {env content : Text} : isListed env (names content) = true ↔
    ∃ piece ∈ Text.splitOn 0x2C content,
      Text.trim piece ≠ [] ∧ Text.sameFold (Text.trim piece) env = true := by
  simp only [isListed, names, List.any_eq_true, List.mem_filter, List.mem_map, Bool.not_eq_true',
    List.isEmpty_eq_false_iff]
  constructor
  · rintro ⟨_, ⟨⟨piece, hpiece, rfl⟩, hname⟩, hfold⟩
    exact ⟨piece, hpiece, hname, hfold⟩
  · rintro ⟨piece, hpiece, hname, hfold⟩
    exact ⟨_, ⟨⟨piece, hpiece, rfl⟩, hname⟩, hfold⟩

theorem listed?_eq_ok {c : ElementContext} {attr : String} {found : Option (List Text)}
    (h : listed? c attr = .ok found) :
    (found.isNone = true ↔ ∀ a ∈ c.attributes, Text.sameFold a.name (utf8 attr) = false) ∧
      ∀ env, found.any (isListed env) = true ↔ Lists c.attributes attr env := by
  unfold listed? ElementContext.attribute? at h
  split at h
  · rename_i hnone
    cases h
    refine ⟨by simpa using hnone, fun env => ?_⟩
    simp [Lists, value?, hnone]
  · cases h
  · rename_i hsome
    split at h
    · cases h
    · rename_i hcontent
      cases h
      refine ⟨⟨fun hnever => (by cases hnever), fun hnone => ?_⟩, fun env => ?_⟩
      · have hfold := List.find?_some hsome
        rw [hnone _ (List.mem_of_find?_eq_some hsome)] at hfold
        cases hfold
      · rw [Option.any_some, isListed_names_iff]
        simp [Lists, value?, hsome, hcontent]

theorem run_eq_ok_iff {c : ElementContext} {found : Option (List Node)} : run c = .ok found ↔
    ∃ includes excludes, listed? c "include" = .ok includes ∧ listed? c "exclude" = .ok excludes ∧
      (includes.isNone && excludes.isNone) = false ∧
      found = some (if isKept c.environment includes excludes then c.children else []) := by
  unfold run
  simp only [Bind.bind, Except.bind, Pure.pure, Except.pure]
  constructor
  · intro h
    split at h
    · cases h
    · rename_i includes hincludes
      split at h
      · cases h
      · rename_i excludes hexcludes
        split at h
        · cases h
        · rename_i hbare
          cases h
          exact ⟨includes, excludes, hincludes, hexcludes, Bool.eq_false_iff.mpr hbare, rfl⟩
  · rintro ⟨includes, excludes, hincludes, hexcludes, hbare, rfl⟩
    simp [hincludes, hexcludes, hbare]

theorem isKept_iff {c : ElementContext} {includes excludes : Option (List Text)} (env : Text)
    (hincludes : listed? c "include" = .ok includes) (hexcludes : listed? c "exclude" = .ok excludes) :
    isKept env includes excludes = true ↔ Kept env c.attributes := by
  obtain ⟨hnone, hlists⟩ := listed?_eq_ok hincludes
  obtain ⟨-, hlists'⟩ := listed?_eq_ok hexcludes
  have hall : includes.all (isListed env) = (includes.isNone || includes.any (isListed env)) := by
    cases includes <;> rfl
  simp only [isKept, Kept, hall, Bool.and_eq_true, Bool.or_eq_true, Bool.not_eq_true', ← Bool.not_eq_true,
    hnone, hlists, hlists']

/-- The hook keeps all children of an element that is kept and no children of another, whatever they are. -/
theorem nodes_of_run {env : Text} {attributes : List Attribute} {pos : Option Position}
    {children nodes : List Node} (h : run (shown env attributes pos children) = .ok (some nodes)) :
    (Kept env attributes → nodes = children) ∧
      (¬ Kept env attributes → ∀ ns, run (shown env attributes pos ns) = .ok (some [])) := by
  obtain ⟨includes, excludes, hincludes, hexcludes, hbare, hnodes⟩ := run_eq_ok_iff.mp h
  have hkept : isKept env includes excludes = true ↔ Kept env attributes := isKept_iff env hincludes hexcludes
  refine ⟨fun h => (Option.some.inj hnodes).trans (if_pos (hkept.mpr h)), fun h ns => ?_⟩
  refine run_eq_ok_iff.mpr ⟨includes, excludes, hincludes, hexcludes, hbare, ?_⟩
  exact congrArg some (if_neg fun hns => h (hkept.mp hns)).symm

end Environment

namespace Registry
variable {settings : Settings} {k n : Nat} {s u : State}

/-- Reads what follows the opening tag of an element. -/
def elementRest (r : Registry) (t : Tools) (lt : Punct) (tokens : List Token) (reading : TagReading)
    (stop : TagEnd) : ParseM Unit := do
  let name := tagName tokens
  let isVoid := r.isVoid name
  let isSelfClosed := stop.slash.isSome
  let start := if isVoid then Node.tagVoid name tokens else .tagStart name tokens
  let close :=
    if isVoid then Node.closeVoid stop.pos stop.space stop.slash
    else if isSelfClosed then .closeSelf stop.pos stop.space
    else .closeStart stop.pos stop.space
  let attributes := reading.attributes.reverse
  let opening ← r.tagNodes
    { name, isOpening := true, isVoid, isSelfClosed, attributes,
      nodes := start :: reading.nodes.reverse, close := some close, pos := lt.pos }
  if isVoid || isSelfClosed then emit opening
  else
    let (children, closing) ← r.children t name
    match closing with
    | none => fail lt.pos (.openElement name)
    | some c =>
      if !Text.sameFold c.name name then fail c.pos (.mismatchedTag c.name name)
      let stop ← r.tagNodes
        { name, isOpening := false, isVoid := false, isSelfClosed := false, attributes := [],
          nodes := [.tagEnd c.pos c.name c.tokens], close := none, pos := c.pos }
      let nodes ← r.elementNodes
        { name, attributes, start := opening, children, stop, pos := lt.pos,
          environment := t.settings.environment }
      emit nodes

theorem element_eq (r : Registry) (t : Tools) (lt : Punct) : r.element t lt = (do
    let (tokens, reading, stop) ← t.openingTag lt
    r.elementRest t lt tokens reading stop) := by
  simp only [element, Tools.openingTag, bind_assoc, pure_bind]
  rfl


/-- The only hook of an environment element answers with the nodes that are left of it. -/
theorem elementNodes_environment_iff {c : ElementContext} {ns : List Node}
    (hname : Text.sameFold c.name (utf8 "environment") = true) :
    Returns (standard.elementNodes c) s ns u ↔ Environment.run c = .ok (some ns) ∧
      u = s.noted "node hook" [("element", c.name), ("tokens", Text.ofNat ns.length)] := by
  have haccepts : standard.elementHooks.filter (·.accepts c.name) = [Environment.hook] := by
    simp [standard, Environment.hook, hname]
  have hhook : Environment.hook.run c = Environment.run c := rfl
  cases hrun : Environment.run c with
  | error e =>
    simp only [elementNodes, haccepts, hhook, hrun]
    refine ⟨fun h => h.throw.elim, ?_⟩
    rintro ⟨hok, -⟩
    cases hok
  | ok found =>
    cases found with
    | none =>
      obtain ⟨_, _, -, -, -, hnone⟩ := Environment.run_eq_ok_iff.mp hrun
      cases hnone
    | some nodes =>
      simp only [elementNodes, haccepts, hhook, hrun]
      constructor
      · intro h
        obtain ⟨_, _, hnote, hpure⟩ := h.bind
        obtain ⟨rfl, rfl⟩ := hpure.pure
        exact ⟨rfl, hnote.modify⟩
      · rintro ⟨hok, rfl⟩
        cases hok
        rfl

/-- What follows the opening tag of an environment element: the children are read, and what the hook makes of
them is added. -/
theorem elementRest_environment_iff {t : Tools} (lt : Punct) {tokens : List Token} {reading : TagReading}
    {stop : TagEnd} (hname : Text.sameFold (tagName tokens) (utf8 "environment") = true)
    (hstop : stop.slash = none) :
    Returns (standard.elementRest t lt tokens reading stop) s () u ↔
      ∃ kids c v nodes, Returns (standard.children t (tagName tokens)) s (kids, some c) v ∧
        Text.sameFold c.name (tagName tokens) = true ∧
        Environment.run (Environment.shown t.settings.environment reading.attributes.reverse lt.pos kids) =
          .ok (some nodes) ∧
        u = nodes.foldl State.push
          (v.noted "node hook" [("element", tagName tokens), ("tokens", Text.ofNat nodes.length)]) := by
  have hvoid := (standard_environment hname).1
  unfold elementRest
  simp only [tagNodes_default (r := standard) rfl, hvoid, hstop, pure_bind, Option.isSome_none, Bool.or_self,
    Bool.false_eq_true, if_false]
  constructor
  · intro h
    obtain ⟨⟨kids, closing⟩, v, hchildren, h₁⟩ := h.bind
    cases closing with
    | none => exact h₁.fail.elim
    | some c =>
      dsimp only at h₁
      split at h₁
      · obtain ⟨_, _, hfail, -⟩ := h₁.bind
        exact hfail.fail.elim
      · rename_i hfold
        obtain ⟨nodes, w, hcontext, hemit⟩ := h₁.bind
        obtain ⟨hrun, rfl⟩ := (elementNodes_environment_iff hname).mp hcontext
        exact ⟨kids, c, v, nodes, hchildren, by simpa using hfold, hrun, hemit.modify⟩
  · rintro ⟨kids, c, v, nodes, hchildren, hfold, hrun, rfl⟩
    refine hchildren.andThen ?_
    simp only [hfold, Bool.not_true, Bool.false_eq_true, if_false]
    exact Returns.andThen ((elementNodes_environment_iff hname).mpr ⟨hrun, rfl⟩) rfl

/-- The tools of a turn in the file of a state, when `n` more turns and `k` more includes are left. -/
def toolsAt (r : Registry) (settings : Settings) (k n : Nat) (s : State) : Tools :=
  r.tools settings (r.embedIn settings k s.includers s.path) n

/-- An opening tag adds nothing to the region. -/
theorem openingTag_sink {t : Tools} {lt : Punct} {out : List Token × TagReading × TagEnd}
    (h : Returns (t.openingTag lt) s out u) : u.sink = s.sink := by
  have hsink : OfSink fun v => v.sink = s.sink := fun _ _ hv heq => heq.trans hv
  have hkeeps : ParseM.Keeps (fun v => v.sink = s.sink) (t.openingTag lt) fun _ => True := by
    refine (hsink.ofNodes.skip _).bind fun _ _ => ?_
    refine ParseM.Keeps.rest.bind fun _ _ => ?_
    refine (hsink.ofNodes.skip _).bind fun _ _ => ?_
    exact (Tools.attributes_keeps hsink _ _).bind fun _ _ => .pure trivial
  exact (hkeeps _ _ _ rfl h).1

/-- The texts among the children of an element stand apart, and nothing is added to the region around it yet. -/
theorem children_apart {file : State} {name : Text} {kids : List Node} {c : ClosingTag}
    (hraw : standard.isRawText name = false)
    (h : Returns (standard.children (standard.toolsAt settings k n file) name) s (kids, some c) u) :
    TextsApart kids ∧ u.sink = s.sink := by
  have hgrows : Growing fun v => TextsApart v.sink :=
    ⟨fun _ _ hv heq => heq ▸ hv, fun _ m hv => State.push_textsApart hv m⟩
  obtain ⟨s₁, s₂, hcheck, hloop, rfl, rfl⟩ := (children_closed_iff hraw).mp h
  have hempty : TextsApart s.inside.sink := ⟨fun _ hp => (by cases hp), .nil⟩
  obtain ⟨hstart, -⟩ := hgrows.ofNodes.checkStop _ _ _ hempty hcheck
  have hembed := embedIn_keeps (r := standard) hgrows settings k file.includers file.path
  have hkeeps := loop_grows (r := standard) hgrows settings hembed
    (fun d hd t he id => Directive.builtin_grows hgrows hd he id) n
  exact ⟨(hkeeps _ _ _ hstart hloop).1.reverse, rfl⟩

/-- An environment element that is kept adds its children as they were parsed, a first text joined to the text
before the element, exactly if the trim that the children leave behind does not take from their first text. One
that is not kept adds nothing. -/
theorem element_kept_iff {lt : Punct} {tokens : List Token} {reading : TagReading} {stop : TagEnd} {s₁ : State}
    (hopen : Returns ((standard.toolsAt settings k n s).openingTag lt) s (tokens, reading, stop) s₁)
    (hstop : stop.slash = none) (hname : Text.sameFold (tagName tokens) (utf8 "environment") = true)
    (h : Returns (standard.element (standard.toolsAt settings k n s) lt) s () u) :
    ∃ kids c v,
      Returns (standard.children (standard.toolsAt settings k n s) (tagName tokens)) s₁ (kids, some c) v ∧
      (Environment.Kept settings.environment reading.attributes.reverse →
        (u.sink = State.follow s.sink kids ↔ v.addsFirst kids = true)) ∧
      (¬ Environment.Kept settings.environment reading.attributes.reverse → u.sink = s.sink) := by
  rw [element_eq] at h
  obtain ⟨_, _, hopen', hrest⟩ := h.bind
  cases hopen.symm.trans hopen'
  obtain ⟨kids, c, v, nodes, hchildren, -, hrun, rfl⟩ := (elementRest_environment_iff lt hname hstop).mp hrest
  obtain ⟨hkept, hdropped⟩ := Environment.nodes_of_run hrun
  obtain ⟨hapart, hsink⟩ := children_apart (standard_environment hname).2 hchildren
  have hbefore : v.sink = s.sink := hsink.trans (openingTag_sink hopen)
  refine ⟨kids, c, v, hchildren, fun h => ?_, fun h => ?_⟩
  · obtain rfl := hkept h
    have hfollows := State.foldl_push_follows_iff
      (v.noted "node hook" [("element", tagName tokens), ("tokens", Text.ofNat nodes.length)]) hapart
    rw [← hbefore]
    exact hfollows
  · cases hrun.symm.trans (hdropped h kids)
    exact hbefore

/-- The tokens start with a character. -/
def startsAt (p : Punct) : List Token → Bool
  | .punct q :: _ => q = p
  | _ => false

theorem exists_of_startsAt {p : Punct} {ts : List Token} (h : startsAt p ts = true) :
    ∃ us, ts = .punct p :: us := by
  unfold startsAt at h
  split at h
  · exact ⟨_, by rw [of_decide_eq_true h]⟩
  · cases h

/-- The node is this text. -/
def isTextOf (content : Text) : Node → Bool
  | .text _ t => t = content
  | _ => false

/-- The state behind a text, before an element of the development environment that ends with an import. -/
def trimSample : State where
  world := {}
  path := utf8 "index.rhtml"
  includers := []
  stream := .ofTokens (Token.ofSource
    (utf8 "<environment include=\"Development\">\nb @use \"fmt\"</environment>"))
  sink := [.text (some ⟨1, 1, 0, 0⟩) (utf8 "a")]

/-- The settings of a development environment. -/
def development : Settings := { environment := utf8 "Development", markdown := .ok }

/-- The import takes the end of the line from the first text of the element. -/
theorem element_kept_trimmed : ∃ lt tokens reading stop s₁ u kids c v,
    Returns ((standard.toolsAt development 1 40 trimSample).openingTag lt) trimSample
      (tokens, reading, stop) s₁ ∧
    stop.slash = none ∧ Text.sameFold (tagName tokens) (utf8 "environment") = true ∧
    Returns (standard.element (standard.toolsAt development 1 40 trimSample) lt) trimSample () u ∧
    Returns (standard.children (standard.toolsAt development 1 40 trimSample) (tagName tokens)) s₁
      (kids, some c) v ∧
    Environment.Kept development.environment reading.attributes.reverse ∧
    u.sink.head?.any (isTextOf (utf8 "ab ")) = true ∧ u.sink ≠ State.follow trimSample.sink kids := by
  obtain ⟨lt, hlt⟩ : ∃ lt : Punct, lt = ⟨some ⟨1, 1, 0, 0⟩, [], '<'⟩ := ⟨_, rfl⟩
  obtain ⟨⟨tokens, reading, stop⟩, s₁, hopen, hread⟩ := exists_of_passes
    (p := fun out s₁ => out.2.2.slash.isNone && Text.sameFold (tagName out.1) (utf8 "environment") &&
      Environment.Kept development.environment out.2.1.attributes.reverse &&
      passes (fun read v => !v.addsFirst read.1)
        (standard.children (standard.toolsAt development 1 40 trimSample) (tagName out.1) s₁))
    ((standard.toolsAt development 1 40 trimSample).openingTag lt) trimSample
    (by rw [hlt, standard_eq]; decide +kernel)
  obtain ⟨_, u, h, hjoined⟩ := exists_of_passes (p := fun _ u => u.sink.head?.any (isTextOf (utf8 "ab ")))
    (standard.element (standard.toolsAt development 1 40 trimSample) lt) trimSample
    (by rw [hlt, standard_eq]; decide +kernel)
  simp only [Bool.and_eq_true, Option.isNone_iff_eq_none, decide_eq_true_eq] at hread
  obtain ⟨⟨⟨hstop, hname⟩, hkeeps⟩, hpasses⟩ := hread
  obtain ⟨_, _, hchildren', htrims⟩ := exists_of_passes _ _ hpasses
  obtain ⟨kids, c, v, hchildren, hkept, -⟩ := element_kept_iff hopen hstop hname h
  cases hchildren.symm.trans hchildren'
  refine ⟨lt, tokens, reading, stop, s₁, u, _, _, _, hopen, hstop, hname, h, hchildren, hkeeps, hjoined, ?_⟩
  intro hfollow
  rw [(hkept hkeeps).mp hfollow] at htrims
  cases htrims

end Registry

end Atmark
