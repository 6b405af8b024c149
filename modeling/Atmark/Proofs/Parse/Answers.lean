import Atmark.Proofs.Directive.Congruence

/-! What a parse owes to the hooks. It asks them for one answer for each tag and each element, and that does
not depend on their order or on hooks that never answer; so neither does the parse. A clash of hooks is an
answer too, an error, and an error ends the parse wherever it is asked for: if what is answered for some tags
can show in the result at all, a clash at them does (`Template.parse_hooks`). -/
namespace Atmark
open Node ParseM

/-- A step outside the file is known by what it does inside. -/
theorem ParseM.ofWorld_injective {α : Type} {m m' : WorldM α} (h : ofWorld m = ofWorld m') : m = m' := by
  funext w
  have hrun := congrFun h { world := w, path := [], includers := [], stream := .ofTokens [] }
  simp only [ofWorld] at hrun
  cases hm : m w <;> cases hm' : m' w <;> simp_all

namespace Registry

/-! ## Answers -/

/-- The answer of the only hook that accepts something; nobody answers if there is none. -/
def sole (answers : List (Except Error (Option (List Node)))) (clash : Error) :
    Except Error (Option (List Node)) :=
  match answers with
  | [] => .ok none
  | [a] => a
  | _ => .error clash

theorem sole_perm {answers answers' : List (Except Error (Option (List Node)))} (h : answers'.Perm answers)
    (clash : Error) : sole answers' clash = sole answers clash := by
  match answers, answers', h with
  | [], _, h => rw [List.perm_nil.mp h]
  | [a], _, h => rw [List.perm_singleton.mp h]
  | _ :: _ :: _, _ :: _ :: _, _ => rfl
  | _ :: _ :: _, [], h => cases h.length_eq
  | _ :: _ :: _, [_], h => cases h.length_eq

theorem sole_clash {answers : List (Except Error (Option (List Node)))} (h : 2 ≤ answers.length)
    (clash : Error) : sole answers clash = .error clash := by
  match answers, h with
  | _ :: _ :: _, _ => rfl

/-- What the hooks of the registry answer for a tag. -/
def tagAnswer (r : Registry) (c : TagContext) : Except Error (Option (List Node)) :=
  sole ((r.tagHooks.filter (·.accepts c.name)).map (·.run c)) (.at? c.pos (.manyTagHooks c.name))

/-- What the hooks of the registry answer for an element. -/
def elementAnswer (r : Registry) (c : ElementContext) : Except Error (Option (List Node)) :=
  sole ((r.elementHooks.filter (·.accepts c.name)).map (·.run c)) (.at? c.pos (.manyNodeHooks c.name))

/-- The nodes for an answer: its own, or else those that are there already. -/
def answered (ns : List Node) (pos : Option Position) (message : String)
    (fields : List Node → List (String × Text)) : Except Error (Option (List Node)) → ParseM (List Node)
  | .error e => throw (e.withPosition pos)
  | .ok none => return ns
  | .ok (some nodes) => do
    note message (fields nodes)
    return nodes

theorem tagNodes_eq (r : Registry) (c : TagContext) :
    r.tagNodes c = answered c.default c.pos "tag hook" (fun _ => [("tag", c.name),
      ("opening", utf8 (if c.isOpening then "true" else "false"))]) (r.tagAnswer c) := by
  unfold tagNodes tagAnswer
  cases r.tagHooks.filter (·.accepts c.name) with
  | nil => rfl
  | cons h hs =>
    cases hs with
    | nil =>
      have hone : sole ([h].map (·.run c)) (.at? c.pos (.manyTagHooks c.name)) = h.run c := rfl
      rw [hone]
      dsimp only
      cases h.run c with
      | error e => rfl
      | ok o => cases o <;> rfl
    | cons => rfl

theorem elementNodes_eq (r : Registry) (c : ElementContext) :
    r.elementNodes c = answered c.default c.pos "node hook" (fun nodes => [("element", c.name),
      ("tokens", Text.ofNat nodes.length)]) (r.elementAnswer c) := by
  unfold elementNodes elementAnswer
  cases r.elementHooks.filter (·.accepts c.name) with
  | nil => rfl
  | cons h hs =>
    cases hs with
    | nil =>
      have hone : sole ([h].map (·.run c)) (.at? c.pos (.manyNodeHooks c.name)) = h.run c := rfl
      rw [hone]
      dsimp only
      cases h.run c with
      | error e => rfl
      | ok o => cases o <;> rfl
    | cons => rfl

/-! ## Registries that answer the same -/

/-- Sources parse to the same with both registries. -/
def ParsesAs (r r' : Registry) : Prop :=
  Template.parse r' = Template.parse r ∧ Template.parseFile r' = Template.parseFile r

/-- Registries that only differ in their hooks, and whose hooks answer the same, parse the same. -/
theorem parsesAs_of_answers {r r' : Registry} (directives : r'.directives = r.directives)
    (voidTags : r'.voidTags = r.voidTags) (rawTextTags : r'.rawTextTags = r.rawTextTags)
    (tags : ∀ c, r'.tagAnswer c = r.tagAnswer c) (elements : ∀ c, r'.elementAnswer c = r.elementAnswer c) :
    r.ParsesAs r' := by
  have hr : Related (fun {_} m m' => m = m') r r' :=
    { directives, voidTags, rawTextTags
      runs := fun d _ t t' id ht => by rw [ht.eq]
      tagNodes := fun c => by rw [tagNodes_eq, tagNodes_eq, tags]
      elementNodes := fun c => by rw [elementNodes_eq, elementNodes_eq, elements] }
  have hparse : Template.parse r' = Template.parse r := by
    funext settings path src
    unfold Template.parse
    rw [ofWorld_injective (Congruence.eq.parseSource hr settings _ [] path src)]
  refine ⟨hparse, ?_⟩
  unfold Template.parseFile
  rw [hparse]

/-- The order of the hooks does not matter. -/
theorem parsesAs_perm (r : Registry) {tags : List TagHook} {elements : List ElementHook}
    (ht : tags.Perm r.tagHooks) (he : elements.Perm r.elementHooks) :
    r.ParsesAs { r with tagHooks := tags, elementHooks := elements } :=
  parsesAs_of_answers rfl rfl rfl (fun _ => sole_perm ((ht.filter _).map _) _)
    fun _ => sole_perm ((he.filter _).map _) _

/-- A hook that never answers does not matter, unless it clashes with another one. -/
theorem parsesAs_silent (r : Registry) {h : TagHook} (silent : ∀ c, h.run c = .ok none)
    (apart : ∀ h' ∈ r.tagHooks, ∀ name, ¬(h.accepts name = true ∧ h'.accepts name = true)) :
    r.ParsesAs { r with tagHooks := h :: r.tagHooks } := by
  refine parsesAs_of_answers rfl rfl rfl (fun c => ?_) fun _ => rfl
  unfold tagAnswer
  rw [List.filter_cons]
  split
  · rename_i haccepts
    have hnone : r.tagHooks.filter (·.accepts c.name) = [] := by
      refine List.filter_eq_nil_iff.mpr fun h' hh' haccepts' => ?_
      exact apart h' hh' c.name ⟨haccepts, haccepts'⟩
    rw [hnone]
    exact silent c
  · rfl

theorem ParsesAs.trans {r r' r'' : Registry} (h : r.ParsesAs r') (h' : r'.ParsesAs r'') : r.ParsesAs r'' :=
  ⟨h'.1.trans h.1, h'.2.trans h.2⟩

/-! ## Answers that show -/

end Registry

theorem Error.withPath_nil (e : Error) : e.withPath [] = e := by
  cases e with
  | fault p | stopped p | content p => cases p <;> rfl
  | _ => rfl

/-- The innermost path stays. -/
theorem Error.withPath_withPath (e : Error) (p q : Text) :
    (e.withPath p).withPath q = e.withPath (if p.isEmpty then q else p) := by
  cases e with
  | fault r | stopped r | content r => cases r <;> cases p <;> rfl
  | _ => rfl

/-- The second step does what the first does, unless it ends with one of some errors, found in some file. -/
def ParseM.Unless (errors : Error → Prop) {α : Type} (m m' : ParseM α) : Prop :=
  ∀ s, m' s = m s ∨ ∃ e path t, errors e ∧ m' s = .error (e.withPath path) t

/-- An error that ends a step ends what the step is a part of. -/
theorem ParseM.Congruence.unless (errors : Error → Prop) :
    Congruence fun {_} m m' => Unless errors m m' where
  refl m := fun _ => .inl rfl
  bind {α β m m' f f'} h hf := by
    intro s
    rcases h s with hs | ⟨e, path, t, he, hs⟩
    · simp only [Bind.bind, EStateM.bind, hs]
      cases m s with
      | ok a t => exact hf a t
      | error e t => exact .inl rfl
    · exact .inr ⟨e, path, t, he, by simp only [Bind.bind, EStateM.bind, hs]⟩
  inFile path includers tokens m m' h := by
    intro s
    rcases h { world := s.world, path, includers, stream := .ofTokens tokens } with hs | ⟨e, p, t, he, hs⟩
    · exact .inl (by simp only [ParseM.inFile, ofWorld, WorldM.ofParse, hs])
    · refine .inr ⟨e, if p.isEmpty then path else p, { s with world := t.world }, he, ?_⟩
      simp only [ParseM.inFile, ofWorld, WorldM.ofParse, hs, Error.withPath_withPath]

namespace Registry

/-- The registry with other answers for some tags. -/
def answeringTags (r : Registry) (these : TagContext → Bool)
    (answer : TagContext → Except Error (Option (List Node))) : Registry :=
  { r with tagHooks := [⟨fun _ => true, fun c => if these c then answer c else r.tagAnswer c⟩] }

/-- The registry with other answers for some elements. -/
def answeringElements (r : Registry) (these : ElementContext → Bool)
    (answer : ElementContext → Except Error (Option (List Node))) : Registry :=
  { r with elementHooks := [⟨fun _ => true, fun c => if these c then answer c else r.elementAnswer c⟩] }

theorem tagAnswer_answeringTags (r : Registry) (these : TagContext → Bool)
    (answer : TagContext → Except Error (Option (List Node))) (c : TagContext) :
    (r.answeringTags these answer).tagAnswer c = if these c then answer c else r.tagAnswer c := rfl

theorem elementAnswer_answeringElements (r : Registry) (these : ElementContext → Bool)
    (answer : ElementContext → Except Error (Option (List Node))) (c : ElementContext) :
    (r.answeringElements these answer).elementAnswer c =
      if these c then answer c else r.elementAnswer c := rfl

/-- The parse comes to one of some tags: what is answered for them can show in its result. -/
def ReachesTag (r : Registry) (settings : Settings) (path src : Text) (w : World)
    (these : TagContext → Bool) : Prop :=
  ∃ answer answer', Template.parse (r.answeringTags these answer) settings path src w ≠
    Template.parse (r.answeringTags these answer') settings path src w

/-- The parse comes to one of some elements. -/
def ReachesElement (r : Registry) (settings : Settings) (path src : Text) (w : World)
    (these : ElementContext → Bool) : Prop :=
  ∃ answer answer', Template.parse (r.answeringElements these answer) settings path src w ≠
    Template.parse (r.answeringElements these answer') settings path src w

/-- A parse whose answers differ only where they are errors differs only by such an error. -/
theorem parse_unless {errors : Error → Prop} {r r' : Registry}
    (hr : Related (fun {_} m m' => Unless errors m m') r r') (settings : Settings) (path src : Text)
    (w : World) :
    Template.parse r' settings path src w = Template.parse r settings path src w ∨
      ∃ e file w', errors e ∧ Template.parse r' settings path src w = .error (e.withPath file) w' := by
  have hrun := (Congruence.unless errors).parseSource hr settings (Template.includeBound settings) []
    path src { world := w, path, includers := [], stream := .ofTokens [] }
  simp only [ofWorld] at hrun
  simp only [Template.parse, Bind.bind, EStateM.bind]
  cases h : r.parseSource settings (Template.includeBound settings) [] path src w <;>
    cases h' : r'.parseSource settings (Template.includeBound settings) [] path src w <;>
      simp_all

/-- If two parses with answers of their own differ, the parse with errors in the place of these answers ends
with one of the errors. -/
theorem parse_error_of_ne {errors : Error → Prop} {r₁ r₂ r' : Registry}
    (h₁ : Related (fun {_} m m' => Unless errors m m') r₁ r')
    (h₂ : Related (fun {_} m m' => Unless errors m m') r₂ r') {settings : Settings} {path src : Text}
    {w : World} (hne : Template.parse r₁ settings path src w ≠ Template.parse r₂ settings path src w) :
    ∃ e file w', errors e ∧ Template.parse r' settings path src w = .error (e.withPath file) w' := by
  rcases parse_unless h₁ settings path src w with heq₁ | h
  · rcases parse_unless h₂ settings path src w with heq₂ | h
    · exact absurd (heq₁.symm.trans heq₂) hne
    · exact h
  · exact h

variable {r : Registry} (hd : ∀ d ∈ r.directives, d.IsPlain)
include hd

theorem answeringTags_related (these : TagContext → Bool)
    (answer : TagContext → Except Error (Option (List Node))) (error : TagContext → Error) :
    Related (fun {_} m m' => Unless (fun e => ∃ c, these c = true ∧ e = (error c).withPosition c.pos) m m')
      (r.answeringTags these answer) (r.answeringTags these fun c => .error (error c)) where
  directives := rfl
  runs d hmem t t' id ht := hd d hmem _ (Congruence.unless _) t t' id ht
  voidTags := rfl
  rawTextTags := rfl
  elementNodes c := (Congruence.unless _).refl _
  tagNodes c := by
    rw [tagNodes_eq, tagNodes_eq, tagAnswer_answeringTags, tagAnswer_answeringTags]
    cases hc : these c with
    | false => exact (Congruence.unless _).refl _
    | true => exact fun s => .inr ⟨_, [], s, ⟨c, hc, rfl⟩, by rw [Error.withPath_nil]; rfl⟩

theorem answeringElements_related (these : ElementContext → Bool)
    (answer : ElementContext → Except Error (Option (List Node))) (error : ElementContext → Error) :
    Related (fun {_} m m' => Unless (fun e => ∃ c, these c = true ∧ e = (error c).withPosition c.pos) m m')
      (r.answeringElements these answer) (r.answeringElements these fun c => .error (error c)) where
  directives := rfl
  runs d hmem t t' id ht := hd d hmem _ (Congruence.unless _) t t' id ht
  voidTags := rfl
  rawTextTags := rfl
  tagNodes c := (Congruence.unless _).refl _
  elementNodes c := by
    rw [elementNodes_eq, elementNodes_eq, elementAnswer_answeringElements,
      elementAnswer_answeringElements]
    cases hc : these c with
    | false => exact (Congruence.unless _).refl _
    | true => exact fun s => .inr ⟨_, [], s, ⟨c, hc, rfl⟩, by rw [Error.withPath_nil]; rfl⟩

/-- A parse that comes to a tag that several hooks accept ends there. -/
theorem parse_tag_clash {settings : Settings} {path src : Text} {w : World} {these : TagContext → Bool}
    (hclash : ∀ c, these c = true → 2 ≤ (r.tagHooks.filter (·.accepts c.name)).length)
    (hreach : r.ReachesTag settings path src w these) :
    ∃ c file w', these c = true ∧ Template.parse r settings path src w =
      .error (.fault file (c.pos.getD .zero) (.manyTagHooks c.name)) w' := by
  obtain ⟨answer, answer', hne⟩ := hreach
  let error (c : TagContext) : Error := .at? c.pos (.manyTagHooks c.name)
  obtain ⟨e, file, w', ⟨c, hc, rfl⟩, hends⟩ := parse_error_of_ne
    (answeringTags_related hd these answer error) (answeringTags_related hd these answer' error) hne
  refine ⟨c, file, w', hc, ?_⟩
  have hsame : r.ParsesAs (r.answeringTags these fun c => .error (error c)) := by
    refine parsesAs_of_answers rfl rfl rfl (fun c => ?_) fun _ => rfl
    rw [tagAnswer_answeringTags]
    split
    · rename_i hc
      exact (sole_clash (by simpa using hclash c hc) _).symm
    · rfl
  rw [← hsame.1]
  exact hends

/-- A parse that comes to an element that several hooks accept ends there. -/
theorem parse_element_clash {settings : Settings} {path src : Text} {w : World}
    {these : ElementContext → Bool}
    (hclash : ∀ c, these c = true → 2 ≤ (r.elementHooks.filter (·.accepts c.name)).length)
    (hreach : r.ReachesElement settings path src w these) :
    ∃ c file w', these c = true ∧ Template.parse r settings path src w =
      .error (.fault file (c.pos.getD .zero) (.manyNodeHooks c.name)) w' := by
  obtain ⟨answer, answer', hne⟩ := hreach
  let error (c : ElementContext) : Error := .at? c.pos (.manyNodeHooks c.name)
  obtain ⟨e, file, w', ⟨c, hc, rfl⟩, hends⟩ := parse_error_of_ne
    (answeringElements_related hd these answer error) (answeringElements_related hd these answer' error) hne
  refine ⟨c, file, w', hc, ?_⟩
  have hsame : r.ParsesAs (r.answeringElements these fun c => .error (error c)) := by
    refine parsesAs_of_answers rfl rfl rfl (fun _ => rfl) fun c => ?_
    rw [elementAnswer_answeringElements]
    split
    · rename_i hc
      exact (sole_clash (by simpa using hclash c hc) _).symm
    · rfl
  rw [← hsame.1]
  exact hends

end Registry

namespace Template

/-- Hooks can be registered in any order. A parse that comes to a tag that several tag hooks accept, or to an
element that several element hooks accept, ends there with an error that says so; the directives may be those
of the language, or others that do nothing with the parser but run it. A tag hook that never answers, and
accepts no name that another one accepts, changes no parse. -/
theorem parse_hooks (r : Registry) :
    (∀ tags elements, tags.Perm r.tagHooks → elements.Perm r.elementHooks →
      r.ParsesAs { r with tagHooks := tags, elementHooks := elements }) ∧
    ((∀ d ∈ r.directives, d ∈ Registry.standard.directives ∨ d.IsPlain) → ∀ settings path src w,
      (∀ these : TagContext → Bool,
        (∀ c, these c = true → 2 ≤ (r.tagHooks.filter (·.accepts c.name)).length) →
        r.ReachesTag settings path src w these →
        ∃ c file w', these c = true ∧ parse r settings path src w =
          .error (.fault file (c.pos.getD .zero) (.manyTagHooks c.name)) w') ∧
      (∀ these : ElementContext → Bool,
        (∀ c, these c = true → 2 ≤ (r.elementHooks.filter (·.accepts c.name)).length) →
        r.ReachesElement settings path src w these →
        ∃ c file w', these c = true ∧ parse r settings path src w =
          .error (.fault file (c.pos.getD .zero) (.manyNodeHooks c.name)) w')) ∧
    (∀ h : TagHook, (∀ c, h.run c = .ok none) →
      (∀ h' ∈ r.tagHooks, ∀ name, ¬(h.accepts name = true ∧ h'.accepts name = true)) →
      ∀ tags, tags.Perm (h :: r.tagHooks) → r.ParsesAs { r with tagHooks := tags }) := by
  refine ⟨fun tags elements ht he => r.parsesAs_perm ht he, fun hplain settings path src w => ?_, ?_⟩
  · have hd : ∀ d ∈ r.directives, d.IsPlain := fun d hd =>
      (hplain d hd).elim (Registry.standard_isPlain d) id
    exact ⟨fun these hclash hreach => Registry.parse_tag_clash hd hclash hreach,
      fun these hclash hreach => Registry.parse_element_clash hd hclash hreach⟩
  · intro h silent apart tags htags
    refine (r.parsesAs_silent silent apart).trans ?_
    exact Registry.parsesAs_perm { r with tagHooks := h :: r.tagHooks } htags (List.Perm.refl _)

/-- Two hooks for the tags of one name and two for the elements of another one. -/
def clashing : Registry where
  directives := builtinDirectives
  tagHooks := [⟨(· = utf8 "b"), fun c => .ok (some c.nodes)⟩, ⟨(· = utf8 "b"), fun _ => .ok none⟩]
  elementHooks := [Environment.hook, ⟨(· = utf8 "i"), fun _ => .ok (some [])⟩,
    ⟨(· = utf8 "i"), fun c => .ok (some c.children)⟩]
  voidTags := [utf8 "br"]
  rawTextTags := [utf8 "script"]

/-- The only tags of the sources below that hooks clash at. -/
def clashingTag (c : TagContext) : Bool := c.name = utf8 "b"

/-- The only element of the sources below that hooks clash at. -/
def clashingElement (c : ElementContext) : Bool := c.name = utf8 "i"

theorem parse_hooks_clashing :
    clashing.ParsesAs { clashing with
      tagHooks := clashing.tagHooks.reverse, elementHooks := clashing.elementHooks.reverse } ∧
    (clashing.ReachesTag { markdown := .ok } (utf8 "t") (utf8 "<p><b>x</b></p>") {} clashingTag ∧
      ∃ c file w', clashingTag c = true ∧
        parse clashing { markdown := .ok } (utf8 "t") (utf8 "<p><b>x</b></p>") {} =
          .error (.fault file (c.pos.getD .zero) (.manyTagHooks c.name)) w') ∧
    (clashing.ReachesElement { markdown := .ok } (utf8 "t") (utf8 "<p><i>x</i></p>") {} clashingElement ∧
      ∃ c file w', clashingElement c = true ∧
        parse clashing { markdown := .ok } (utf8 "t") (utf8 "<p><i>x</i></p>") {} =
          .error (.fault file (c.pos.getD .zero) (.manyNodeHooks c.name)) w') ∧
    clashing.ParsesAs { clashing with
      tagHooks := clashing.tagHooks ++ [⟨(· = utf8 "p"), fun _ => .ok none⟩] } := by
  obtain ⟨hperm, hclash, hsilent⟩ := parse_hooks clashing
  have hplain : ∀ d ∈ clashing.directives, d ∈ Registry.standard.directives ∨ d.IsPlain :=
    fun d hd => .inl hd
  have hreach : clashing.ReachesTag { markdown := .ok } (utf8 "t") (utf8 "<p><b>x</b></p>") {}
      clashingTag := by
    refine ⟨fun _ => .ok none, fun _ => .error (.plain []), fun h => ?_⟩
    exact absurd (congrArg (WorldM.returned fun _ => true) h) (by decide +kernel)
  have hreach' : clashing.ReachesElement { markdown := .ok } (utf8 "t") (utf8 "<p><i>x</i></p>") {}
      clashingElement := by
    refine ⟨fun _ => .ok none, fun _ => .error (.plain []), fun h => ?_⟩
    exact absurd (congrArg (WorldM.returned fun _ => true) h) (by decide +kernel)
  refine ⟨hperm _ _ (List.reverse_perm _) (List.reverse_perm _), ⟨hreach, ?_⟩, ⟨hreach', ?_⟩, ?_⟩
  · refine (hclash hplain _ _ _ _).1 clashingTag (fun c hc => ?_) hreach
    have hname : c.name = utf8 "b" := of_decide_eq_true hc
    rw [hname]
    decide +kernel
  · refine (hclash hplain _ _ _ _).2 clashingElement (fun c hc => ?_) hreach'
    have hname : c.name = utf8 "i" := of_decide_eq_true hc
    rw [hname]
    decide +kernel
  · refine hsilent ⟨(· = utf8 "p"), fun _ => .ok none⟩ (fun _ => rfl) ?_ _ (List.perm_append_singleton _ _)
    rintro h' hh' name ⟨hname, hname'⟩
    obtain rfl : name = utf8 "p" := of_decide_eq_true hname
    have hall : ∀ h' ∈ clashing.tagHooks, h'.accepts (utf8 "p") = false := by decide +kernel
    rw [hall h' hh'] at hname'
    cases hname'

end Template
end Atmark
