import Atmark.Proofs.Parse.Returns

/-! Parses with two registries that differ in what their hooks answer. Everything else that a parse does is
the same in both, so a relation that each step has to itself, and that sequences and included files inherit
(`Congruence`), relates the two parses as soon as it relates the answers (`Congruence.parseSource`). -/
namespace Atmark
open Node ParseM

namespace ParseM

/-- The parse of a file from inside another one: a region, a stream and declarations of its own. -/
def inFile (path : Text) (includers : List Text) (tokens : List Token) (m : ParseM Unit) :
    ParseM (List Node × Declarations) :=
  ofWorld fun w =>
    match WorldM.ofParse (fun w => { world := w, path, includers, stream := .ofTokens tokens }) m w with
    | .ok (_, s) w => .ok (s.sink.reverse, s.declared) w
    | .error e w => .error (e.withPath path) w

/-- The relation holds of each step and itself, of sequences of steps that it relates, and of files that are
read by such. -/
structure Congruence (R : {α : Type} → ParseM α → ParseM α → Prop) : Prop where
  refl {α : Type} (m : ParseM α) : R m m
  bind {α β : Type} {m m' : ParseM α} {f f' : α → ParseM β} :
    R m m' → (∀ a, R (f a) (f' a)) → R (m >>= f) (m' >>= f')
  inFile (path : Text) (includers : List Text) (tokens : List Token) {m m' : ParseM Unit} :
    R m m' → R (ParseM.inFile path includers tokens m) (ParseM.inFile path includers tokens m')

/-- Equality is the least such relation. -/
theorem Congruence.eq : Congruence fun {_} m m' => m = m' where
  refl _ := rfl
  bind h hf := by rw [h, funext hf]
  inFile _ _ _ _ _ h := by rw [h]

end ParseM

/-- What a directive may use does related things in two parses. -/
structure Tools.Related (R : {α : Type} → ParseM α → ParseM α → Prop) (t t' : Tools) : Prop where
  settings : t'.settings = t.settings
  knows : t'.knows = t.knows
  turns : t'.turns = t.turns
  resume : R t.resume t'.resume
  embed : ∀ file src, R (t.embed file src) (t'.embed file src)

theorem Tools.Related.eq {t t' : Tools} (h : Tools.Related (fun {_} m m' => m = m') t t') : t = t' := by
  have hembed : t.embed = t'.embed := funext fun file => funext (h.embed file)
  obtain ⟨hsettings, hknows, hturns, hresume, -⟩ := h
  cases t
  cases t'
  exact Tools.mk.injEq .. ▸ ⟨hsettings.symm, hknows.symm, hresume, hturns.symm, hembed⟩

/-- The directive does with what it may use nothing but run it: whenever that does related things, so does
the directive. -/
def Directive.IsPlain (d : Directive) : Prop :=
  ∀ (R : {α : Type} → ParseM α → ParseM α → Prop), Congruence R →
    ∀ t t' id, Tools.Related R t t' → R (d.run t id) (d.run t' id)

/-- The registries are the same but for hooks, and these answer in related ways. -/
structure Registry.Related (R : {α : Type} → ParseM α → ParseM α → Prop) (r r' : Registry) : Prop where
  directives : r'.directives = r.directives
  runs : ∀ d ∈ r.directives, ∀ t t' id, Tools.Related R t t' → R (d.run t id) (d.run t' id)
  voidTags : r'.voidTags = r.voidTags
  rawTextTags : r'.rawTextTags = r.rawTextTags
  tagNodes : ∀ c, R (r.tagNodes c) (r'.tagNodes c)
  elementNodes : ∀ c, R (r.elementNodes c) (r'.elementNodes c)

theorem Registry.Related.directive?_eq {R : {α : Type} → ParseM α → ParseM α → Prop} {r r' : Registry}
    (hr : Registry.Related R r r') (name : Text) : r'.directive? name = r.directive? name := by
  rw [Registry.directive?, hr.directives]
  rfl

namespace ParseM.Congruence
variable {R : {α : Type} → ParseM α → ParseM α → Prop} (hR : Congruence R) {α β : Type}
include hR

theorem of_eq {m m' : ParseM α} (h : m' = m) : R m m' := h ▸ hR.refl m

/-- What comes before is the same. -/
theorem next {m : ParseM α} {f f' : α → ParseM β} (h : ∀ a, R (f a) (f' a)) : R (m >>= f) (m >>= f') :=
  hR.bind (hR.refl m) h

/-- What comes after is the same. -/
theorem before {m m' : ParseM α} (h : R m m') (f : α → ParseM β) : R (m >>= f) (m' >>= f) :=
  hR.bind h fun a => hR.refl (f a)

/-- A step that comes after a check that may fail. -/
theorem guard {c : Prop} [Decidable c] {pos : Option Position} {cause : Fault} {f f' : Unit → ParseM α}
    (h : R (f ()) (f' ())) :
    R (if c then ParseM.fail pos cause >>= f else f ()) (if c then ParseM.fail pos cause >>= f' else f' ()) := by
  split
  · exact hR.bind (m := ParseM.fail pos cause) (hR.refl _) fun _ => h
  · exact h

/-! ## Regions and expressions -/

variable {t t' : Tools} (ht : Tools.Related R t t')
include ht

theorem parse : R t.parse t'.parse := hR.next fun _ => ht.resume

theorem region (f : Frame) (ts : List Token) (markup : Bool) :
    R (t.region f ts markup) (t'.region f ts markup) :=
  hR.next fun _ => hR.next fun _ => hR.before (hR.parse ht) _

theorem group (f : Frame) (ts : List Token) : R (t.group f ts) (t'.group f ts) := by
  refine hR.next fun s => ?_
  split
  · exact hR.next fun _ => hR.next fun _ => hR.next fun _ => hR.before (hR.parse ht) _
  · exact hR.before (hR.region ht f ts _) _

theorem code (p : Punct) : R (t.code p) (t'.code p) := by
  refine hR.next fun _ => hR.next fun ts => ?_
  split
  · split
    · exact hR.next fun _ => hR.before (hR.region ht _ _ _) _
    · exact hR.refl _
  · exact hR.refl _

theorem selectors (ts : List Token) : R (t.selectors ts) (t'.selectors ts) := by
  fun_induction Tools.selectors t ts with
  | case1 => exact hR.refl _
  | case2 tok ts ihDot ihPath ihGroup =>
    rw [Tools.selectors.eq_def t' (tok :: ts)]
    refine hR.next fun _ => ?_
    split
    · exact hR.refl _
    refine hR.next fun _ => ?_
    split
    · split
      · split
        · split
          · exact hR.next fun _ => hR.before ihDot _
          · exact hR.refl _
        · exact hR.refl _
      · split
        · split
          · exact hR.refl _
          · split
            · split
              · exact hR.next fun _ => hR.before ihPath _
              · exact hR.refl _
            · exact hR.refl _
        · split
          · split <;> exact hR.refl _
          · exact hR.refl _
    · split
      · exact hR.refl _
      · exact hR.next fun _ => hR.bind (hR.region ht _ _ _) fun _ => hR.before ihGroup _
    · exact hR.refl _

theorem expressionFrom (id : Ident) : R (t.expressionFrom id) (t'.expressionFrom id) :=
  hR.next fun ts => hR.before (hR.selectors ht ts) _

theorem expression : R t.expression t'.expression := by
  refine hR.next fun ts => ?_
  split
  · exact hR.refl _
  · exact hR.next fun _ => hR.expressionFrom ht _
  · split
    · split
      · split
        · split
          · exact hR.next fun _ => hR.before (hR.expressionFrom ht _) _
          · exact hR.refl _
        · exact hR.refl _
      · exact hR.refl _
    · exact hR.refl _

/-! ## Tags -/

theorem valueExpression (marker : Punct) (attr : Text) :
    R (t.valueExpression marker attr) (t'.valueExpression marker attr) := by
  refine hR.next fun _ => hR.next fun next => ?_
  split
  · exact hR.refl _
  · refine hR.guard ?_
    split
    · exact hR.expression ht
    · exact hR.refl _
    · split
      · exact hR.next fun _ => hR.before (hR.region ht _ _ _) _
      · exact hR.refl _
    · split
      · exact hR.expression ht
      · exact hR.refl _

theorem attrValue (tag attr : Text) (tok : Token) (ts : List Token) :
    R (t.attrValue tag attr tok ts) (t'.attrValue tag attr tok ts) := by
  unfold Tools.attrValue
  split
  · exact hR.refl _
  · exact hR.refl _
  · split
    · exact hR.refl _
    split
    · exact hR.refl _
    split
    · exact hR.before (hR.valueExpression ht _ _) _
    · exact hR.refl _
  · exact hR.refl _

theorem attributesWithin (lt : Option Position) (tag : Text) (n : Nat) (reading : TagReading)
    (focus : Tools.TagFocus) :
    R (t.attributesWithin lt tag n reading focus) (t'.attributesWithin lt tag n reading focus) := by
  induction n generalizing reading focus with
  | zero => exact hR.refl _
  | succ n ih =>
    refine hR.next fun _ => hR.next fun ts => ?_
    split
    · exact hR.refl _
    · refine hR.next fun _ => ?_
      split
      · exact hR.bind (hR.attrValue ht _ _ _ _) fun _ => ih _ _
      · split
        · split
          · exact hR.refl _
          split
          · exact hR.refl _
          split
          · split
            · exact hR.refl _
            · exact hR.next fun _ => ih _ _
          split
          · exact hR.next fun _ => ih _ _
          · exact hR.refl _
        · exact hR.next fun _ => ih _ _
        · split
          · exact hR.next fun _ => ih _ _
          · exact hR.refl _
        · exact hR.refl _

theorem attributes (lt : Option Position) (tag : Text) :
    R (t.attributes lt tag) (t'.attributes lt tag) :=
  hR.next fun _ => hR.attributesWithin ht lt tag _ _ _

/-! ## Elements and the loop -/

variable {r r' : Registry} (hr : Registry.Related R r r')
include hr

theorem runDirective {d : Directive} (hd : d ∈ r.directives) (marker : Option Position) (id : Ident) :
    R (Registry.runDirective t d marker id) (Registry.runDirective t' d marker id) := by
  refine hR.next fun _ => hR.next fun _ => hR.bind (hr.runs d hd t t' id ht) fun out => ?_
  cases out with
  | next => exact hR.refl _
  | leave => exact hR.refl _
  | expression => exact hR.before (hR.expressionFrom ht id) _

theorem afterMarker (marker : Option Position) (next : Token) :
    R (r.afterMarker t marker next) (r'.afterMarker t' marker next) := by
  unfold Registry.afterMarker
  simp only [hr.directive?_eq]
  split
  · split
    · exact hR.refl _
    split
    · exact hR.before (hR.expression ht) _
    · exact hR.refl _
  · split
    · rename_i d hd
      exact hR.runDirective ht hr (List.mem_of_find?_eq_some hd) marker _
    · exact hR.before (hR.expression ht) _
  · exact hR.refl _
  · split
    · exact hR.next fun _ => hR.before (hR.region ht _ _ _) _
    split
    · exact hR.next fun _ => hR.before (hR.region ht _ _ _) _
    · exact hR.refl _

theorem marker (m : Token) : R (r.marker t m) (r'.marker t' m) := by
  have hglued : R (r.gluedToMarker t m.pos) (r'.gluedToMarker t' m.pos) := by
    refine hR.next fun next => ?_
    split
    · exact hR.refl _
    · exact hR.guard (hR.next fun _ => hR.afterMarker ht hr _ _)
  refine hR.next fun _ => hR.next fun s => ?_
  split
  · exact hR.refl _
  · split
    · exact hR.next fun _ => hglued
    · exact hglued

theorem rawTextWithin (name : Text) (n : Nat) :
    R (r.rawTextWithin t name n) (r'.rawTextWithin t' name n) := by
  induction n with
  | zero => exact hR.refl _
  | succ n ih =>
    refine hR.next fun _ => hR.next fun ts => ?_
    split
    · exact hR.refl _
    · refine hR.next fun _ => ?_
      split
      · exact hR.refl _
      split
      · exact hR.bind (hR.marker ht hr _) fun _ => ih
      · exact hR.next fun _ => hR.next fun _ => ih

theorem children (name : Text) : R (r.children t name) (r'.children t' name) := by
  have hcontent : R (r.content t name) (r'.content t' name) := by
    have hraw : r'.isRawText name = r.isRawText name := by
      rw [Registry.isRawText, hr.rawTextTags]
      rfl
    unfold Registry.content
    rw [hraw, ht.turns]
    split
    · exact hR.rawTextWithin ht hr name _
    · exact hR.parse ht
  rw [Registry.children_eq, Registry.children_eq]
  exact hR.next fun _ => hR.next fun _ => hR.before hcontent _

theorem element (lt : Punct) : R (r.element t lt) (r'.element t' lt) := by
  have hvoid (name : Text) : r'.isVoid name = r.isVoid name := by
    rw [Registry.isVoid, hr.voidTags]
    rfl
  unfold Registry.element
  simp only [hvoid, ht.settings]
  refine hR.next fun _ => hR.next fun ts => hR.next fun _ => ?_
  refine hR.bind (hR.attributes ht _ _) fun read => ?_
  refine hR.bind (hr.tagNodes _) fun opening => ?_
  split
  · exact hR.refl _
  · refine hR.bind (hR.children ht hr _) fun ⟨children, closing⟩ => ?_
    cases closing with
    | none => exact hR.refl _
    | some c =>
      refine hR.guard ?_
      exact hR.bind (hr.tagNodes _) fun stop => hR.before (hr.elementNodes _) _

theorem tagEntry (lt : Punct) (ts : List Token) : R (r.tagEntry t lt ts) (r'.tagEntry t' lt ts) := by
  refine hR.next fun s => ?_
  dsimp only
  split
  · exact hR.refl _
  split
  · exact hR.refl _
  split
  · split
    · exact hR.next fun _ => hR.before (hR.element ht hr lt) _
    · exact hR.before (hR.element ht hr lt) _
  · exact hR.refl _

omit hr in
theorem goOn : R (Registry.goOn t) (Registry.goOn t') := by
  refine hR.next fun s => ?_
  split
  · exact hR.refl _
  · exact ht.resume

theorem turn : R (r.turn t) (r'.turn t') := by
  refine hR.next fun _ => hR.next fun ts => ?_
  cases ts with
  | nil => exact hR.refl _
  | cons tok ts =>
    refine hR.next fun _ => hR.next fun s => ?_
    split
    · exact hR.next fun _ => hR.next fun _ => hR.goOn ht
    · exact hR.next fun _ => hR.bind (hR.group ht _ _) fun _ => hR.goOn ht
    · exact hR.bind (hR.marker ht hr _) fun _ => hR.goOn ht
    · refine hR.bind (hR.tagEntry ht hr _ _) fun closing => ?_
      cases closing with
      | some c => exact hR.refl _
      | none => exact hR.goOn ht
    · exact hR.bind (hR.expression ht) fun _ => hR.next fun _ => hR.goOn ht
    · exact hR.next fun _ => hR.next fun _ => hR.goOn ht
    · exact hR.bind (hR.code ht _) fun _ => hR.goOn ht
    · exact hR.refl _

omit ht in
theorem loop (settings : Settings) {embed embed' : Text → Text → ParseM Fragment}
    (he : ∀ file src, R (embed file src) (embed' file src)) (n : Nat) :
    R (r.loop settings embed n) (r'.loop settings embed' n) := by
  induction n with
  | zero => exact hR.refl _
  | succ n ih =>
    have hknows : (fun name => (r'.directive? name).isSome) = fun name => (r.directive? name).isSome :=
      funext fun name => congrArg Option.isSome (hr.directive?_eq name)
    have ht : Tools.Related R
        { settings, embed, knows := fun name => (r.directive? name).isSome,
          resume := r.loop settings embed n, turns := n }
        { settings, embed := embed', knows := fun name => (r'.directive? name).isSome,
          resume := r'.loop settings embed' n, turns := n } := ⟨rfl, hknows, rfl, ih, he⟩
    exact hR.turn ht hr

omit ht in
theorem readTokens (settings : Settings) {embed embed' : Text → Text → ParseM Fragment}
    (he : ∀ file src, R (embed file src) (embed' file src)) (n : Nat) (tokens : List Token)
    (trailing : Text) :
    R (r.readTokens settings embed n tokens trailing) (r'.readTokens settings embed' n tokens trailing) :=
  hR.next fun _ => hR.before (hR.loop hr settings he n) _

omit ht in
/-- Two parses of a source are related if the answers of the hooks are. -/
theorem parseSource (settings : Settings) (n : Nat) (includers : List Text) (path src : Text) :
    R (ofWorld (r.parseSource settings n includers path src))
      (ofWorld (r'.parseSource settings n includers path src)) := by
  induction n generalizing includers path src with
  | zero => exact hR.refl _
  | succ n ih =>
    cases hlex : Token.lex src with
    | error e =>
      have hfail (r : Registry) : r.parseSource settings (n + 1) includers path src = fun w =>
          .error (e.withPath path) w := by
        funext w
        unfold Registry.parseSource
        rw [hlex]
      rw [hfail r, hfail r']
      exact hR.refl _
    | ok p =>
      obtain ⟨tokens, trailing⟩ := p
      have hread (r : Registry) : ofWorld (r.parseSource settings (n + 1) includers path src) =
          MonadState.get >>= fun s => ParseM.inFile path includers tokens (r.readTokens settings
            (r.embedIn settings n includers path) (r.turns s.world tokens) tokens trailing) := by
        funext s
        simp only [ofWorld, Registry.parseSource_lexed r settings n includers path src s.world hlex]
        rfl
      have hturns (w : World) : r'.turns w tokens = r.turns w tokens := by
        rw [Registry.turns, hr.directives]
        rfl
      rw [hread r, hread r']
      simp only [hturns]
      refine hR.next fun s => hR.inFile path includers tokens ?_
      exact hR.readTokens hr settings (fun file src => hR.before (ih _ _ _) _) _ _ _

end ParseM.Congruence
end Atmark
