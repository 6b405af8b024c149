import Atmark.Proofs.Node.Bare
import Atmark.Proofs.Parse.Returns
import Atmark.Parse.Engine
import Atmark.Directive.Content

/-! Two runs over one file. They may find the contents that the file includes in different ways, and are
included by different files themselves; but as long as the contents are bare the same, both runs take the
same steps and end alike (`Lockstep`). Where they need not, one of them ends with an error that the pairing
names. Every function of the parser keeps step if the directives do (`loop_lockstep`). -/
namespace Atmark
open Node ParseM

/-! ## Parts of a file -/

namespace Token

/-- The tokens are the rest of a file or of a group in it. -/
inductive Part (all : List Token) : List Token → Prop
  | whole : Part all all
  | tail {t : Token} {ts : List Token} : Part all (t :: ts) → Part all ts
  | inner {f : Frame} {cs ts : List Token} : Part all (.group f cs :: ts) → Part all cs

namespace Part
variable {all ts : List Token}

theorem drop (h : Part all ts) (n : Nat) : Part all (ts.drop n) := by
  induction n generalizing ts with
  | zero => simpa using h
  | succ n ih =>
    cases ts with
    | nil => simpa using h
    | cons t ts => exact ih h.tail

theorem group {f : Frame} {cs : List Token} (h : Part all ts) (hg : .group f cs ∈ ts) : Part all cs := by
  induction ts with
  | nil => cases hg
  | cons t ts ih =>
    rcases List.mem_cons.mp hg with rfl | hg
    · exact h.inner
    · exact ih h.tail hg

end Part

theorem eq_of_action_group {markup statement : Bool} {tok : Token} {f : Frame} {cs : List Token}
    (h : tok.action markup statement = .group f cs) : tok = .group f cs := by
  cases tok with
  | group =>
    cases h
    rfl
  | _ =>
    simp only [Token.action] at h
    repeat' split at h
    all_goals cases h

end Token

/-- The path at the head of the tokens after a directive: a string, or adjacent tokens. -/
def Directive.pathAfter? (ts : List Token) : Option Text :=
  let bare := some (Token.sourceOf (pathTokens true ts))
  match ts with
  | .literal l :: _ => if l.isString then l.value? else bare
  | _ => bare

/-- The directive that keeps contents of a kind in the cache. -/
def ContentKind.directive : ContentKind → Text
  | .html => utf8 "htmlfile"
  | .markdown => utf8 "markdownfile"
  | .template => utf8 "rusthtmlfile"

/-- The directives that read the content of a file while parsing. -/
def Directive.readingNames : List Text :=
  [utf8 "htmlfile", utf8 "markdownfile", utf8 "rusthtmlfile", utf8 "rusthtmlfile_nocache"]

/-- One of the directives is written in the tokens of a file, followed by the name of a content. -/
def Directive.Names (directives : List Text) (tokens : List Token) (name : Text) : Prop :=
  ∃ id ts, Token.Part tokens (.ident id :: ts) ∧ id.name ∈ directives ∧ pathAfter? ts = some name

theorem Directive.Names.reads {kind : ContentKind} {tokens : List Token} {name : Text}
    (h : Names [kind.directive] tokens name) : Names readingNames tokens name := by
  obtain ⟨id, ts, hpart, hid, hpath⟩ := h
  refine ⟨id, ts, hpart, ?_, hpath⟩
  rw [List.mem_singleton.mp hid]
  cases kind <;> simp [readingNames, ContentKind.directive]

/-! ## Pairs of runs -/

/-- What two runs over a file have to do with each other. -/
structure Pairing where
  path : Text
  tokens : List Token
  /-- The files that include the file in the first run. -/
  left : List Text
  /-- The files that include it in the second run. -/
  right : List Text
  caches : Option Cache → Option Cache → Prop
  /-- Errors that only the second run may end with. -/
  bad : Error → Prop
  /-- Errors that only the first run may end with. -/
  lost : Error → Prop
  /-- What an included file must not declare is refused in both runs, or in the first one at least. -/
  included : (left = [] ↔ right = []) ∨ (left ≠ [] ∧ ∀ e, lost e)

namespace Pairing

/-- The states are the same but for where the contents in them were found. -/
structure Alike (P : Pairing) (s s' : State) : Prop where
  declared : s'.declared = s.declared
  stream : s'.stream = s.stream
  atStart : s'.atStart = s.atStart
  markup : s'.markup = s.markup
  last : s'.last = s.last
  broken : s'.broken = s.broken
  trimLine : s'.trimLine = s.trimLine
  sink : bareAll s.sink = bareAll s'.sink
  path : s.path = P.path ∧ s'.path = P.path
  includers : s.includers = P.left ∧ s'.includers = P.right
  budget : s.world.budget = none ∧ s'.world.budget = none
  caches : P.caches s.world.cache s'.world.cache
  part : Token.Part P.tokens s.stream.rest

/-- How two steps may end together. -/
inductive Outcome (P : Pairing) {α : Type} (R : α → α → Prop) :
    EStateM.Result Error State α → EStateM.Result Error State α → Prop
  | ok {a b : α} {t t' : State} : R a b → P.Alike t t' → Outcome P R (.ok a t) (.ok b t')
  | error {e : Error} {t t' : State} :
      P.caches t.world.cache t'.world.cache → Outcome P R (.error e t) (.error e t')
  | bad {r : EStateM.Result Error State α} {e : Error} {t' : State} :
      P.bad e → Outcome P R r (.error e t')
  | lost {e : Error} {t : State} {r' : EStateM.Result Error State α} :
      P.lost e → Outcome P R (.error e t) r'

/-- From states that are alike the two steps end alike. -/
def Lockstep (P : Pairing) {α : Type} (m m' : ParseM α) (R : α → α → Prop) : Prop :=
  ∀ s s', P.Alike s s' → P.Outcome R (m s) (m' s')

variable {P : Pairing} {α β : Type} {R : α → α → Prop} {Q : β → β → Prop}

theorem Outcome.bind {s s' : State} {m m' : ParseM α} {f f' : α → ParseM β}
    (hm : P.Outcome R (m s) (m' s'))
    (hf : ∀ a b t t', m s = .ok a t → R a b → P.Alike t t' → P.Outcome Q (f a t) (f' b t')) :
    P.Outcome Q ((m >>= f) s) ((m' >>= f') s') := by
  simp only [Bind.bind, EStateM.bind]
  cases h : m s with
  | ok a t =>
    cases h' : m' s' with
    | ok b t' =>
      rw [h, h'] at hm
      cases hm with
      | ok hab ht => exact hf a b t t' h hab ht
    | error e t' =>
      rw [h, h'] at hm
      cases hm with
      | bad he => exact .bad he
  | error e t =>
    cases h' : m' s' with
    | ok b t' =>
      rw [h, h'] at hm
      cases hm with
      | lost he => exact .lost he
    | error e' t' =>
      rw [h, h'] at hm
      cases hm with
      | error hc => exact .error hc
      | bad he => exact .bad he
      | lost he => exact .lost he

theorem Outcome.mono {r r' : EStateM.Result Error State α} {R' : α → α → Prop} (h : P.Outcome R r r')
    (hR : ∀ a b, R a b → R' a b) : P.Outcome R' r r' := by
  cases h with
  | ok hab ht => exact .ok (hR _ _ hab) ht
  | error hc => exact .error hc
  | bad he => exact .bad he
  | lost he => exact .lost he

namespace Lockstep

theorem bind {m m' : ParseM α} {f f' : α → ParseM β} (hm : P.Lockstep m m' R)
    (hf : ∀ a b, R a b → P.Lockstep (f a) (f' b) Q) : P.Lockstep (m >>= f) (m' >>= f') Q :=
  fun s s' hs => (hm s s' hs).bind fun a b t t' _ hab => hf a b hab t t'

theorem mono {m m' : ParseM α} {R' : α → α → Prop} (h : P.Lockstep m m' R)
    (hR : ∀ a b, R a b → R' a b) : P.Lockstep m m' R' :=
  fun s s' hs => (h s s' hs).mono hR

/-- After a step that returns the same in both runs. -/
theorem next {m m' : ParseM α} {f f' : α → ParseM β} (hm : P.Lockstep m m' Eq)
    (hf : ∀ a, P.Lockstep (f a) (f' a) Q) : P.Lockstep (m >>= f) (m' >>= f') Q := by
  refine hm.bind ?_
  rintro a _ rfl
  exact hf a

theorem pure {a b : α} (h : R a b) : P.Lockstep (Pure.pure a) (Pure.pure b) R :=
  fun _ _ hs => .ok h hs

theorem throw (e : Error) : P.Lockstep (MonadExcept.throw e) (MonadExcept.throw e) R :=
  fun _ _ hs => .error hs.caches

theorem fail (pos : Option Position) (cause : Fault) :
    P.Lockstep (ParseM.fail pos cause) (ParseM.fail pos cause) R := throw _

theorem unexpected (t : Token) (c : Context) :
    P.Lockstep (ParseM.unexpected t c) (ParseM.unexpected t c) R := throw _

theorem get : P.Lockstep MonadState.get MonadState.get P.Alike :=
  fun _ _ hs => .ok hs hs

theorem set {x x' : State} (h : P.Alike x x') :
    P.Lockstep (MonadStateOf.set x) (MonadStateOf.set x') Eq :=
  fun _ _ _ => .ok rfl h

theorem modify {f f' : State → State} (h : ∀ s s', P.Alike s s' → P.Alike (f s) (f' s')) :
    P.Lockstep (modify f) (modify f') Eq :=
  fun s s' hs => .ok rfl (h s s' hs)

end Lockstep

/-- A check that fails in both runs, or in none. -/
theorem Outcome.guard {c : Prop} [Decidable c] {pos : Option Position} {cause : Fault}
    {m m' : Unit → ParseM α} {s s' : State} (hs : P.Alike s s')
    (h : ¬c → P.Outcome R (m () s) (m' () s')) :
    P.Outcome R ((if c then ParseM.fail pos cause >>= m else m ()) s)
      ((if c then ParseM.fail pos cause >>= m' else m' ()) s') := by
  split
  · exact Lockstep.bind (.fail (R := fun _ _ => False) pos cause) (fun _ _ hf => hf.elim) s s' hs
  · rename_i hc
    exact h hc

theorem Lockstep.guard {c : Prop} [Decidable c] {pos : Option Position} {cause : Fault}
    {m m' : Unit → ParseM α} (h : ¬c → P.Lockstep (m ()) (m' ()) R) :
    P.Lockstep (if c then ParseM.fail pos cause >>= m else m ())
      (if c then ParseM.fail pos cause >>= m' else m' ()) R :=
  fun s s' hs => .guard hs fun hc => h hc s s' hs

end Pairing

/-! ## Steps of a file -/

namespace Pairing
variable {P : Pairing}

theorem Alike.atStatementStart {s s' : State} (h : P.Alike s s') :
    s'.atStatementStart = s.atStatementStart := by
  have hsink := h.sink
  unfold State.atStatementStart
  cases hs : s.sink with
  | nil =>
    rw [hs] at hsink
    cases hs' : s'.sink with
    | nil => exact h.atStart
    | cons n ns => rw [hs'] at hsink; cases hsink
  | cons n ns =>
    rw [hs] at hsink
    obtain ⟨n', ns', hs', hn, -⟩ := bareAll_eq_cons hsink.symm
    rw [hs']
    dsimp only
    rw [← endsStatement_bare, hn, endsStatement_bare]

theorem Alike.endsWithWord {s s' : State} (h : P.Alike s s') :
    s'.sink.head?.any Node.endsWithWord = s.sink.head?.any Node.endsWithWord := by
  have hhead : (bareAll s'.sink).head?.any Node.endsWithWord =
      (bareAll s.sink).head?.any Node.endsWithWord := by rw [h.sink]
  simpa [bareAll_eq_map, Option.any_map, Function.comp_def] using hhead

theorem Alike.foldl_push {s s' : State} (h : P.Alike s s') {ns ns' : List Node}
    (hns : bareAll ns = bareAll ns') : P.Alike (ns.foldl State.push s) (ns'.foldl State.push s') := by
  obtain ⟨hsink, htrim⟩ := State.foldl_push_bare h.sink h.trimLine.symm hns
  obtain ⟨sink, trimLine, hf⟩ := s.foldl_push_frame ns
  obtain ⟨sink', trimLine', hf'⟩ := s'.foldl_push_frame ns'
  rw [hf, hf'] at hsink htrim ⊢
  exact { h with sink := hsink, trimLine := htrim.symm }

theorem rest_lockstep : P.Lockstep rest rest fun ts ts' => ts = ts' ∧ Token.Part P.tokens ts :=
  fun _ _ hs => .ok ⟨by rw [hs.stream], hs.part⟩ hs

theorem peek_lockstep : P.Lockstep peek peek Eq :=
  fun _ _ hs => .ok (by rw [hs.stream]) hs

/-- The tokens of a group that is next are a part of the file. -/
theorem peek_group_lockstep : P.Lockstep peek peek fun a b =>
    a = b ∧ ∀ f cs, a = some (.group f cs) → Token.Part P.tokens cs :=
  fun _ _ hs => .ok ⟨by rw [hs.stream], fun _ _ h => hs.part.group (List.mem_of_head? h)⟩ hs

theorem skip_lockstep (n : Nat) : P.Lockstep (skip n) (skip n) Eq :=
  .modify fun _ _ hs =>
    { hs with stream := by rw [hs.stream], part := by simpa using hs.part.drop n }

theorem setLast_lockstep (pos : Option Position) : P.Lockstep (setLast pos) (setLast pos) Eq :=
  .modify fun _ _ hs => { hs with last := rfl }

theorem trimLine_lockstep : P.Lockstep trimLine trimLine Eq :=
  .modify fun _ _ hs => { hs with trimLine := rfl }

theorem declare_lockstep (f : Declarations → Declarations) : P.Lockstep (declare f) (declare f) Eq :=
  .modify fun _ _ hs => { hs with declared := by rw [hs.declared] }

/-- The records of the two runs need not be the same. -/
theorem note_lockstep (message message' : String) (fields fields' : List (String × Text)) :
    P.Lockstep (note message fields) (note message' fields') Eq :=
  .modify fun _ _ hs => { hs with budget := hs.budget, caches := hs.caches }

theorem checkStop_lockstep : P.Lockstep checkStop checkStop Eq := by
  refine Lockstep.get.bind fun s s' hs => ?_
  rw [hs.budget.1, hs.budget.2]
  exact .pure rfl

theorem emit_lockstep {ns ns' : List Node} (h : bareAll ns = bareAll ns') :
    P.Lockstep (emit ns) (emit ns') Eq :=
  .modify fun _ _ hs => hs.foldl_push h

theorem emitText_lockstep (t : Text) (pos pos' : Option Position) :
    P.Lockstep (emitText t pos) (emitText t pos') Eq :=
  .modify fun _ _ hs => hs.foldl_push (show bareAll [.text pos t] = bareAll [.text pos' t] from rfl)

theorem closingTag_lockstep : P.Lockstep closingTag closingTag Eq := by
  refine peek_lockstep.next fun lt => ?_
  refine (skip_lockstep _).next fun _ => ?_
  refine rest_lockstep.bind ?_
  rintro ts _ ⟨rfl, -⟩
  refine (skip_lockstep _).next fun _ => ?_
  refine peek_lockstep.next fun gt => ?_
  split
  · exact .fail _ _
  · refine (skip_lockstep _).next fun _ => ?_
    split
    · exact .pure rfl
    · exact .unexpected _ _

theorem commentFrom_lockstep (pos : Option Position) (ts : List Token) :
    P.Lockstep (commentFrom pos ts) (commentFrom pos ts) Eq := by
  induction ts with
  | nil => exact checkStop_lockstep.next fun _ => .fail _ _
  | cons tok ts ih =>
    refine checkStop_lockstep.next fun _ => ?_
    split
    · exact (skip_lockstep _).next fun _ => .pure rfl
    · exact (skip_lockstep _).next fun _ => ih.next fun _ => .pure rfl

theorem comment_lockstep (lt : Punct) : P.Lockstep (comment lt) (comment lt) Eq := by
  refine Lockstep.get.bind fun s s' hs => ?_
  rw [hs.markup]
  refine (skip_lockstep _).next fun _ => ?_
  refine rest_lockstep.bind ?_
  rintro ts _ ⟨rfl, -⟩
  exact (commentFrom_lockstep _ _).next fun _ => emitText_lockstep _ _ _

theorem untilBrace_lockstep (pos : Option Position) (what : String) {ts : List Token}
    (hts : Token.Part P.tokens ts) : P.Lockstep (untilBrace pos what ts) (untilBrace pos what ts)
      fun a b => a = b ∧ Token.Part P.tokens a.2.2 := by
  induction ts with
  | nil => exact checkStop_lockstep.next fun _ => .fail _ _
  | cons tok ts ih =>
    have hmore : P.Lockstep (untilBrace pos what ts >>= fun found => pure (tok :: found.1, found.2))
        (untilBrace pos what ts >>= fun found => pure (tok :: found.1, found.2))
        fun a b => a = b ∧ Token.Part P.tokens a.2.2 := by
      refine (ih hts.tail).bind ?_
      rintro found _ ⟨rfl, hbody⟩
      exact .pure ⟨rfl, hbody⟩
    refine checkStop_lockstep.next fun _ => ?_
    refine (skip_lockstep _).next fun _ => ?_
    refine (setLast_lockstep _).next fun _ => ?_
    split
    · split
      · exact .pure ⟨rfl, hts.inner⟩
      · exact hmore
    · exact hmore

end Pairing

/-! ## Tools -/

namespace Directive

/-- Makes a fragment of the content of a file at a path. -/
def convert (t : Tools) (pos : Option Position) : ContentKind → Text → Text → ParseM Fragment
  | .html, data, _ => return { nodes := [.text pos data] }
  | .markdown, data, _ => do return { nodes := [.text pos (← markdownText t data pos)] }
  | .template, data, file => embedTemplate t pos data file

end Directive

namespace Pairing
open Directive

/-- Fragments that are bare the same. -/
def SameBare (f g : Fragment) : Prop := f.bare = g.bare

theorem sameBare_iff {f g : Fragment} : SameBare f g ↔
    bareAll f.nodes = bareAll g.nodes ∧ f.imports = g.imports ∧ f.injects = g.injects := by
  obtain ⟨ns, is, js⟩ := f
  obtain ⟨ns', is', js'⟩ := g
  simp [SameBare, Fragment.bare]

/-- What the two runs use keeps step: going on with the stream, and finding contents. -/
structure Uses (P : Pairing) (t t' : Tools) : Prop where
  settings : t'.settings = { t.settings with files := t'.settings.files }
  turns : t'.turns = t.turns
  resume : P.Lockstep t.resume t'.resume Eq
  cached : ∀ kind name pos, Directive.Names [kind.directive] P.tokens name →
    P.Lockstep (cachedContent t kind name pos (convert t pos kind))
      (cachedContent t' kind name pos (convert t' pos kind)) SameBare
  fresh : ∀ name pos, Directive.Names readingNames P.tokens name →
    P.Lockstep (freshContent t name pos (embedTemplate t pos))
      (freshContent t' name pos (embedTemplate t' pos)) SameBare

/-- The nodes are bare the same. -/
def SameNodes (ns ns' : List Node) : Prop := bareAll ns = bareAll ns'

theorem SameNodes.isEmpty {ns ns' : List Node} (h : SameNodes ns ns') : ns'.isEmpty = ns.isEmpty := by
  rw [← isEmpty_bareAll, ← h, isEmpty_bareAll]

variable {P : Pairing} {t t' : Tools} (ht : P.Uses t t')
include ht

theorem parse_lockstep : P.Lockstep t.parse t'.parse Eq :=
  checkStop_lockstep.next fun _ => ht.resume

/-- A region starts empty in both runs, and the outer ones are taken up as they were. -/
theorem region_lockstep (f : Frame) {ts : List Token} (hts : Token.Part P.tokens ts) (markup : Bool) :
    P.Lockstep (t.region f ts markup) (t'.region f ts markup) SameNodes := by
  refine Lockstep.get.bind fun outer outer' ho => ?_
  have hinner : P.Alike
      { outer with
        stream := .ofGroup f ts, sink := [], markup, atStart := f.delim.holdsStatements }
      { outer' with
        stream := .ofGroup f ts, sink := [], markup, atStart := f.delim.holdsStatements } :=
    { ho with stream := rfl, sink := rfl, markup := rfl, atStart := rfl, part := hts }
  refine (Lockstep.set hinner).next fun _ => ?_
  refine (parse_lockstep ht).next fun closing => ?_
  refine Lockstep.get.bind fun inner inner' hi => ?_
  have houter : P.Alike
      { inner with
        stream := outer.stream, sink := outer.sink, markup := outer.markup, atStart := outer.atStart }
      { inner' with
        stream := outer'.stream, sink := outer'.sink, markup := outer'.markup,
        atStart := outer'.atStart } :=
    { hi with
      stream := ho.stream, sink := ho.sink, markup := ho.markup, atStart := ho.atStart,
      part := ho.part }
  refine (Lockstep.set houter).next fun _ => ?_
  cases closing with
  | some c => exact .fail _ _
  | none =>
    refine .pure ?_
    rw [SameNodes, bareAll_reverse, bareAll_reverse, hi.sink]

theorem group_lockstep (f : Frame) {ts : List Token} (hts : Token.Part P.tokens ts) :
    P.Lockstep (t.group f ts) (t'.group f ts) Eq := by
  refine Lockstep.get.bind fun s s' hs => ?_
  rw [hs.markup]
  split
  · refine (emitText_lockstep _ _ _).next fun _ => ?_
    refine Lockstep.get.bind fun outer outer' ho => ?_
    have hinner : P.Alike { outer with stream := .ofGroup f ts } { outer' with stream := .ofGroup f ts } :=
      { ho with stream := rfl, part := hts }
    refine (Lockstep.set hinner).next fun _ => ?_
    refine (parse_lockstep ht).next fun closing => ?_
    refine Lockstep.next (.modify fun s s' hs => ?_) fun _ => ?_
    · exact { hs with stream := ho.stream, markup := ho.markup, part := ho.part }
    · cases closing with
      | some c => exact .fail _ _
      | none => exact emitText_lockstep _ _ _
  · refine (region_lockstep ht f hts _).bind fun ns ns' hns => ?_
    exact emit_lockstep (by simp only [bareAll, bare]; rw [hns])

theorem code_lockstep (p : Punct) : P.Lockstep (t.code p) (t'.code p) Eq := by
  refine (skip_lockstep _).next fun _ => ?_
  refine rest_lockstep.bind ?_
  rintro ts _ ⟨rfl, hts⟩
  split
  · split
    · refine (skip_lockstep _).next fun _ => ?_
      refine (region_lockstep ht _ hts.tail.tail.tail.inner _).bind fun ns ns' hns => ?_
      exact emit_lockstep (by simp only [bareAll, bare]; rw [hns])
    · exact emit_lockstep rfl
  · exact emit_lockstep rfl

/-! ## Expressions and attributes -/

theorem selectors_lockstep {ts : List Token} (hts : Token.Part P.tokens ts) :
    P.Lockstep (t.selectors ts) (t'.selectors ts) SameNodes := by
  have hnone : P.Lockstep (pure []) (pure []) SameNodes := .pure rfl
  fun_induction Tools.selectors t ts with
  | case1 => exact checkStop_lockstep.next fun _ => hnone
  | case2 tok ts ihDot ihPath ihGroup =>
    have hselect (p : Punct) (n : Ident) (k : Nat) {us : List Token}
        (ih : P.Lockstep (t.selectors us) (t'.selectors us) SameNodes) :
        P.Lockstep (do
          skip k
          return .punct p :: .ident n :: (← t.selectors us)) (do
          skip k
          return .punct p :: .ident n :: (← t'.selectors us)) SameNodes := by
      refine (skip_lockstep _).next fun _ => ih.bind fun ns ns' hns => .pure ?_
      simp only [SameNodes, bareAll] at hns ⊢
      rw [hns]
    rw [Tools.selectors.eq_def t' (tok :: ts)]
    refine checkStop_lockstep.next fun _ => ?_
    split
    · exact hnone
    refine (setLast_lockstep _).next fun _ => ?_
    split
    · split
      · split
        · split
          · exact hselect _ _ _ (ihDot hts.tail.tail)
          · exact hnone
        · exact hnone
      · split
        · split
          · exact hnone
          · split
            · split
              · exact hselect _ _ _ (ihPath hts.tail.tail.tail)
              · exact hnone
            · exact hnone
        · split
          · split
            · exact .fail _ _
            · exact hnone
          · exact hnone
    · split
      · exact hnone
      · refine (skip_lockstep _).next fun _ => ?_
        refine (region_lockstep ht _ hts.inner _).bind fun cs cs' hcs => ?_
        refine (ihGroup hts.tail).bind fun ns ns' hns => .pure ?_
        simp only [SameNodes, bareAll, bare] at hcs hns ⊢
        rw [hcs, hns]
    · exact hnone

theorem expressionFrom_lockstep (id : Ident) :
    P.Lockstep (t.expressionFrom id) (t'.expressionFrom id) SameNodes := by
  refine rest_lockstep.bind ?_
  rintro ts _ ⟨rfl, hts⟩
  refine (selectors_lockstep ht hts).bind fun ns ns' hns => .pure ?_
  simp only [SameNodes, bareAll] at hns ⊢
  rw [hns]

theorem expression_lockstep : P.Lockstep t.expression t'.expression SameNodes := by
  have halone (p : Punct) : P.Lockstep (do skip 1; return [.punct p]) (do skip 1; return [.punct p])
      SameNodes := (skip_lockstep _).next fun _ => .pure rfl
  refine rest_lockstep.bind ?_
  rintro ts _ ⟨rfl, -⟩
  split
  · refine Lockstep.get.bind fun s s' hs => ?_
    rw [hs.stream]
    exact .fail _ _
  · exact (skip_lockstep _).next fun _ => expressionFrom_lockstep ht _
  · split
    · split
      · split
        · split
          · refine (skip_lockstep _).next fun _ => ?_
            refine (expressionFrom_lockstep ht _).bind fun ns ns' hns => .pure ?_
            simp only [SameNodes, bareAll] at hns ⊢
            rw [hns]
          · exact halone _
        · exact halone _
      · exact .unexpected _ _
    · exact .unexpected _ _

theorem valueExpression_lockstep (marker : Punct) (attr : Text) :
    P.Lockstep (t.valueExpression marker attr) (t'.valueExpression marker attr) SameNodes := by
  refine (skip_lockstep _).next fun _ => ?_
  refine peek_group_lockstep.bind ?_
  rintro next _ ⟨rfl, hpart⟩
  split
  · exact .fail _ _
  · refine .guard fun _ => ?_
    split
    · exact expression_lockstep ht
    · exact (skip_lockstep _).next fun _ => .pure rfl
    · split
      · refine (skip_lockstep _).next fun _ => ?_
        refine (region_lockstep ht _ (hpart _ _ rfl) _).bind fun ns ns' hns => ?_
        rw [hns.isEmpty]
        exact .guard fun _ => .pure hns
      · exact .unexpected _ _
    · split
      · exact expression_lockstep ht
      · exact .unexpected _ _

omit ht in
theorem unquotedValue_lockstep (tok : Token) (ts : List Token) :
    P.Lockstep (Tools.unquotedValue tok ts) (Tools.unquotedValue tok ts) Eq :=
  (skip_lockstep _).next fun _ => .pure rfl

theorem attrValue_lockstep (tag attr : Text) (tok : Token) (ts : List Token) :
    P.Lockstep (t.attrValue tag attr tok ts) (t'.attrValue tag attr tok ts)
      fun v v' => v.bare = v'.bare := by
  have hrun : P.Lockstep (do return (⟨tok.pos, ← Tools.unquotedValue tok ts, []⟩ : AttrValue))
      (do return ⟨tok.pos, ← Tools.unquotedValue tok ts, []⟩) fun v v' => v.bare = v'.bare :=
    (unquotedValue_lockstep tok ts).next fun _ => .pure rfl
  unfold Tools.attrValue
  split
  · refine (skip_lockstep _).next fun _ => ?_
    split <;> exact .pure rfl
  · exact hrun
  · split
    · split
      · exact .fail _ _
      · exact (skip_lockstep _).next fun _ => .pure rfl
    split
    · exact hrun
    split
    · refine (valueExpression_lockstep ht _ _).bind fun ns ns' hns => ?_
      refine (note_lockstep _ _ _ _).next fun _ => .pure ?_
      simp only [AttrValue.bare]
      rw [hns]
    split
    · exact .fail _ _
    · exact .unexpected _ _
  · exact .unexpected _ _

theorem attributesWithin_lockstep (lt : Option Position) (tag : Text) (n : Nat) {r r' : TagReading}
    (hr : r.bare = r'.bare) (focus : Tools.TagFocus) :
    P.Lockstep (t.attributesWithin lt tag n r focus) (t'.attributesWithin lt tag n r' focus)
      fun a b => a.1.bare = b.1.bare ∧ a.2 = b.2 := by
  induction n generalizing r r' focus with
  | zero => exact .throw _
  | succ n ih =>
    have hgo (k : Nat) {r r' : TagReading} (hr : r.bare = r'.bare) (focus : Tools.TagFocus) :
        P.Lockstep (do skip k; t.attributesWithin lt tag n r focus)
          (do skip k; t'.attributesWithin lt tag n r' focus)
          fun a b => a.1.bare = b.1.bare ∧ a.2 = b.2 :=
      (skip_lockstep k).next fun _ => ih hr focus
    have hend {r r' : TagReading} (hr : r.bare = r'.bare) :
        r.withoutValue.bare = r'.withoutValue.bare := by
      rw [TagReading.withoutValue_bare, hr, TagReading.withoutValue_bare]
    have hadd (tok : Token) : (r.addKey tok).bare = (r'.addKey tok).bare := by
      rw [TagReading.addKey_bare, hr, TagReading.addKey_bare]
    have hstart (tok : Token) : (r.startKey tok).bare = (r'.startKey tok).bare := by
      rw [TagReading.startKey_bare, hr, TagReading.startKey_bare]
    have hkey : r'.bare.key = r.bare.key := by rw [hr]
    change r'.key = r.key at hkey
    refine checkStop_lockstep.next fun _ => ?_
    refine rest_lockstep.bind ?_
    rintro ts _ ⟨rfl, -⟩
    split
    · exact .fail _ _
    · refine (setLast_lockstep _).next fun _ => ?_
      split
      · refine (attrValue_lockstep ht _ _ _ _).bind fun v v' hv => ih ?_ .name
        rw [TagReading.withValue_bare, hr, hv, TagReading.withValue_bare]
      · split
        · split
          · exact (skip_lockstep _).next fun _ => .pure ⟨hend hr, rfl⟩
          split
          · split
            · exact (skip_lockstep _).next fun _ => .pure ⟨hend hr, rfl⟩
            · exact .fail _ _
          split
          · rw [hkey]
            split
            · exact .fail _ _
            · exact hgo _ hr _
          split
          · exact hgo _ (hadd _) _
          · exact .unexpected _ _
        · exact hgo _ (hadd _) _
        · split
          · exact hgo _ (hstart _) _
          · exact .unexpected _ _
        · exact .unexpected _ _

theorem attributes_lockstep (lt : Option Position) (tag : Text) :
    P.Lockstep (t.attributes lt tag) (t'.attributes lt tag)
      fun a b => a.1.bare = b.1.bare ∧ a.2 = b.2 := by
  refine rest_lockstep.bind ?_
  rintro ts _ ⟨rfl, -⟩
  exact attributesWithin_lockstep ht lt tag _ rfl _

end Pairing

/-! ## Elements and the loop -/

/-- The hook does the same with tags that are bare the same. -/
def TagHook.Blind (h : TagHook) : Prop :=
  ∀ c c' : TagContext, c.bare = c'.bare →
    (h.run c).map (Option.map bareAll) = (h.run c').map (Option.map bareAll)

/-- The hook does the same with elements that are bare the same. -/
def ElementHook.Blind (h : ElementHook) : Prop :=
  ∀ c c' : ElementContext, c.bare = c'.bare →
    (h.run c).map (Option.map bareAll) = (h.run c').map (Option.map bareAll)

/-- The directive keeps step, wherever its name stands in a file. -/
def Directive.Blind (d : Directive) : Prop :=
  ∀ (P : Pairing) (t t' : Tools), P.Uses t t' → ∀ id, id.name = d.name → ∀ s s', P.Alike s s' →
    Token.Part P.tokens (.ident id :: s.stream.rest) → P.Outcome Eq (d.run t id s) (d.run t' id s')

/-- Directives and hooks that do not look at where contents were found. -/
structure Registry.Blind (r : Registry) : Prop where
  directives : ∀ d ∈ r.directives, d.Blind
  tagHooks : ∀ h ∈ r.tagHooks, h.Blind
  elementHooks : ∀ h ∈ r.elementHooks, h.Blind

namespace Pairing
open Registry
variable {P : Pairing} {r : Registry} {t t' : Tools}

/-- The answer of a hook, or the nodes that it leaves as they are. -/
theorem hooked_lockstep {run run' : Except Error (Option (List Node))} {ns ns' : List Node}
    (pos : Option Position) (message : String) (fields fields' : List Node → List (String × Text)) :
    run.map (Option.map bareAll) = run'.map (Option.map bareAll) → SameNodes ns ns' →
    P.Lockstep (match run with
      | .error e => throw (e.withPosition pos)
      | .ok none => return ns
      | .ok (some nodes) => do
        note message (fields nodes)
        return nodes) (match run' with
      | .error e => throw (e.withPosition pos)
      | .ok none => return ns'
      | .ok (some nodes) => do
        note message (fields' nodes)
        return nodes) SameNodes := by
  intro hrun hns
  cases run with
  | error e =>
    cases run' with
    | error e' =>
      cases hrun
      exact .throw _
    | ok o => cases hrun
  | ok o =>
    cases run' with
    | error e' => cases hrun
    | ok o' =>
      have ho : o.map bareAll = o'.map bareAll := Except.ok.inj hrun
      cases o <;> cases o' <;> simp only [Option.map_none, Option.map_some, reduceCtorEq] at ho
      · exact .pure hns
      · exact (note_lockstep _ _ _ _).next fun _ => .pure (Option.some.inj ho)

theorem tagNodes_lockstep (hr : r.Blind) {c c' : TagContext} (hc : c.bare = c'.bare) :
    P.Lockstep (r.tagNodes c) (r.tagNodes c') SameNodes := by
  have hname : c'.bare.name = c.bare.name := by rw [hc]
  have hpos : c'.bare.pos = c.bare.pos := by rw [hc]
  have hdefault : SameNodes c.default c'.default := by
    rw [SameNodes, ← TagContext.default_bare, hc, TagContext.default_bare]
  change c'.name = c.name at hname
  change c'.pos = c.pos at hpos
  unfold tagNodes
  rw [hname, hpos]
  split
  · exact .pure hdefault
  · rename_i h hh
    have hmem : h ∈ r.tagHooks.filter (·.accepts c.name) := hh ▸ List.mem_singleton_self h
    exact hooked_lockstep _ _ _ _ (hr.tagHooks h (List.mem_filter.mp hmem).1 c c' hc) hdefault
  · exact .fail _ _

theorem elementNodes_lockstep (hr : r.Blind) {c c' : ElementContext} (hc : c.bare = c'.bare) :
    P.Lockstep (r.elementNodes c) (r.elementNodes c') SameNodes := by
  have hname : c'.bare.name = c.bare.name := by rw [hc]
  have hpos : c'.bare.pos = c.bare.pos := by rw [hc]
  have hdefault : SameNodes c.default c'.default := by
    rw [SameNodes, ← ElementContext.default_bare, hc, ElementContext.default_bare]
  change c'.name = c.name at hname
  change c'.pos = c.pos at hpos
  unfold elementNodes
  rw [hname, hpos]
  split
  · exact .pure hdefault
  · rename_i h hh
    have hmem : h ∈ r.elementHooks.filter (·.accepts c.name) := hh ▸ List.mem_singleton_self h
    exact hooked_lockstep _ _ _ _ (hr.elementHooks h (List.mem_filter.mp hmem).1 c c' hc) hdefault
  · exact .fail _ _

/-- A directive finds its own name right before the tokens that are left. -/
theorem runDirective_outcome (hr : r.Blind) (ht : P.Uses t t') {d : Directive} (hd : d ∈ r.directives)
    (marker : Option Position) {id : Ident} (hid : id.name = d.name) {s s' : State}
    (hs : P.Alike s s') {ts : List Token} (hrest : s.stream.rest = .ident id :: ts) :
    P.Outcome Eq (runDirective t d marker id s) (runDirective t' d marker id s') := by
  refine (skip_lockstep 1 s s' hs).bind fun _ _ s₁ s₁' h₁ _ hs₁ => ?_
  refine (note_lockstep _ _ _ _ s₁ s₁' hs₁).bind fun _ _ s₂ s₂' h₂ _ hs₂ => ?_
  have hpart : Token.Part P.tokens (.ident id :: s₂.stream.rest) := by
    have hpart := hs.part
    cases h₁
    cases h₂
    simpa [hrest] using hpart
  refine (hr.directives d hd P t t' ht id hid s₂ s₂' hs₂ hpart).bind fun out _ s₃ s₃' _ hout hs₃ => ?_
  cases hout
  cases out with
  | next => exact .ok rfl hs₃
  | leave => exact .ok rfl { hs₃ with broken := rfl }
  | expression =>
    refine (expressionFrom_lockstep ht id s₃ s₃' hs₃).bind fun ns ns' s₄ s₄' _ hns hs₄ => ?_
    exact emit_lockstep (by simp only [bareAll, bare]; rw [hns]) s₄ s₄' hs₄

theorem afterMarker_outcome (hr : r.Blind) (ht : P.Uses t t') (marker : Option Position) {next : Token}
    {s s' : State} (hs : P.Alike s s') {ts : List Token} (hrest : s.stream.rest = next :: ts) :
    P.Outcome Eq (r.afterMarker t marker next s) (r.afterMarker t' marker next s') := by
  have hexpression : P.Lockstep (do emit [.write marker (← t.expression)])
      (do emit [.write marker (← t'.expression)]) Eq :=
    (expression_lockstep ht).bind fun ns ns' hns =>
      emit_lockstep (by simp only [bareAll, bare]; rw [hns])
  have hpart := hs.part
  rw [hrest] at hpart
  unfold afterMarker
  cases next with
  | punct p =>
    dsimp only
    split
    · exact ((skip_lockstep _).next fun _ => emitText_lockstep _ _ _) s s' hs
    split
    · exact hexpression s s' hs
    · exact Lockstep.unexpected _ _ s s' hs
  | ident id =>
    cases hd : r.directive? id.name with
    | none => simpa only [hd] using hexpression s s' hs
    | some d =>
      have hid : d.name = id.name := by simpa using List.find?_some hd
      simpa only [hd] using
        runDirective_outcome hr ht (List.mem_of_find?_eq_some hd) marker hid.symm hs hrest
  | literal l => exact ((skip_lockstep _).next fun _ => emit_lockstep rfl) s s' hs
  | group f cs =>
    dsimp only
    split
    · refine Lockstep.next (skip_lockstep _) (fun _ => ?_) s s' hs
      refine (region_lockstep ht _ hpart.inner _).bind fun ns ns' hns => ?_
      rw [hns.isEmpty]
      refine .guard fun _ => emit_lockstep ?_
      simp only [bareAll, bare]
      rw [hns]
    split
    · refine Lockstep.next (skip_lockstep _) (fun _ => ?_) s s' hs
      refine (region_lockstep ht _ hpart.inner _).bind fun ns ns' hns => ?_
      refine (emit_lockstep hns).next fun _ => ?_
      rw [hns.isEmpty]
      split
      · exact emit_lockstep rfl
      · exact .pure rfl
    · exact Lockstep.unexpected _ _ s s' hs

theorem gluedToMarker_lockstep (hr : r.Blind) (ht : P.Uses t t') (marker : Option Position) :
    P.Lockstep (r.gluedToMarker t marker) (r.gluedToMarker t' marker) Eq := by
  intro s s' hs
  refine (peek_lockstep s s' hs).bind fun next _ s₁ s₁' h₁ hnext hs₁ => ?_
  cases hnext
  cases next with
  | none => exact Lockstep.fail _ _ s₁ s₁' hs₁
  | some next =>
    refine .guard hs₁ fun _ => ?_
    refine (setLast_lockstep _ s₁ s₁' hs₁).bind fun _ _ s₂ s₂' h₂ _ hs₂ => ?_
    have hrest : s₂.stream.rest.head? = some next := by
      injection h₁ with hpeek hstate
      cases h₂
      rw [← hstate]
      exact hpeek
    obtain ⟨ts, hts⟩ := List.head?_eq_some_iff.mp hrest
    exact afterMarker_outcome hr ht marker hs₂ hts

theorem marker_lockstep (hr : r.Blind) (ht : P.Uses t t') (m : Token) :
    P.Lockstep (r.marker t m) (r.marker t' m) Eq := by
  have hafter := gluedToMarker_lockstep hr ht m.pos
  refine (skip_lockstep _).next fun _ => ?_
  refine Lockstep.get.bind fun s s' hs => ?_
  rw [hs.markup, hs.endsWithWord]
  split
  · exact emitText_lockstep _ _ _
  · split
    · exact (emitText_lockstep _ _ _).next fun _ => hafter
    · exact hafter

theorem rawTextWithin_lockstep (hr : r.Blind) (ht : P.Uses t t') (name : Text) (n : Nat) :
    P.Lockstep (r.rawTextWithin t name n) (r.rawTextWithin t' name n) Eq := by
  induction n with
  | zero => exact .throw _
  | succ n ih =>
    refine checkStop_lockstep.next fun _ => ?_
    refine rest_lockstep.bind ?_
    rintro ts _ ⟨rfl, -⟩
    split
    · exact .pure rfl
    · refine (setLast_lockstep _).next fun _ => ?_
      split
      · refine (emitText_lockstep _ _ _).next fun _ => ?_
        exact closingTag_lockstep.next fun _ => .pure rfl
      split
      · exact (marker_lockstep hr ht _).next fun _ => ih
      · refine (skip_lockstep _).next fun _ => ?_
        exact (emitText_lockstep _ _ _).next fun _ => ih

theorem content_lockstep (hr : r.Blind) (ht : P.Uses t t') (name : Text) :
    P.Lockstep (r.content t name) (r.content t' name) Eq := by
  unfold content
  rw [ht.turns]
  split
  · exact rawTextWithin_lockstep hr ht name _
  · exact parse_lockstep ht

theorem children_lockstep (hr : r.Blind) (ht : P.Uses t t') (name : Text) :
    P.Lockstep (r.children t name) (r.children t' name)
      fun c c' => SameNodes c.1 c'.1 ∧ c.2 = c'.2 := by
  rw [children_eq, children_eq]
  refine Lockstep.get.bind fun outer outer' ho => ?_
  have hinner : P.Alike
      { outer with sink := [], markup := true, atStart := outer.atStatementStart }
      { outer' with sink := [], markup := true, atStart := outer'.atStatementStart } :=
    { ho with sink := rfl, markup := rfl, atStart := ho.atStatementStart }
  refine (Lockstep.set hinner).next fun _ => ?_
  refine (content_lockstep hr ht name).next fun closing => ?_
  refine Lockstep.get.bind fun inner inner' hi => ?_
  have houter : P.Alike
      { inner with sink := outer.sink, markup := outer.markup, atStart := outer.atStart }
      { inner' with sink := outer'.sink, markup := outer'.markup, atStart := outer'.atStart } :=
    { hi with sink := ho.sink, markup := ho.markup, atStart := ho.atStart }
  refine (Lockstep.set houter).next fun _ => .pure ⟨?_, rfl⟩
  rw [SameNodes, bareAll_reverse, bareAll_reverse, hi.sink]

theorem element_lockstep (hr : r.Blind) (ht : P.Uses t t') (lt : Punct) :
    P.Lockstep (r.element t lt) (r.element t' lt) Eq := by
  unfold element
  rw [ht.settings]
  dsimp only
  refine (skip_lockstep _).next fun _ => ?_
  refine rest_lockstep.bind ?_
  rintro ts _ ⟨rfl, -⟩
  refine (skip_lockstep _).next fun _ => ?_
  refine (attributes_lockstep ht _ _).bind ?_
  rintro ⟨reading, stop⟩ ⟨reading', _⟩ ⟨hreading, rfl⟩
  have hnodes : bareAll reading.nodes = bareAll reading'.nodes := congrArg TagReading.nodes hreading
  have hattributes : reading.attributes.map Attribute.bare = reading'.attributes.map Attribute.bare :=
    congrArg TagReading.attributes hreading
  refine (tagNodes_lockstep hr ?_).bind fun opening opening' hopening => ?_
  · simp only [TagContext.bare, bareAll, bareAll_reverse, List.map_reverse, hnodes, hattributes]
  split
  · exact emit_lockstep hopening
  · refine (children_lockstep hr ht _).bind ?_
    rintro ⟨children, closing⟩ ⟨children', _⟩ ⟨hchildren, rfl⟩
    cases closing with
    | none => exact .fail _ _
    | some c =>
      refine .guard fun _ => ?_
      refine (tagNodes_lockstep hr rfl).bind fun stop stop' hstop => ?_
      refine (elementNodes_lockstep hr ?_).bind fun ns ns' hns => emit_lockstep hns
      rw [SameNodes] at hopening hchildren hstop
      simp only [ElementContext.bare, List.map_reverse, hattributes, hopening, hchildren, hstop]

theorem tagEntry_lockstep (hr : r.Blind) (ht : P.Uses t t') (lt : Punct) (ts : List Token) :
    P.Lockstep (r.tagEntry t lt ts) (r.tagEntry t' lt ts) Eq := by
  have hclosing : P.Lockstep (return some (← closingTag)) (return some (← closingTag)) Eq :=
    closingTag_lockstep.next fun _ => .pure rfl
  have helement : P.Lockstep (do
      r.element t lt
      return (none : Option ClosingTag)) (do
      r.element t' lt
      return none) Eq :=
    (element_lockstep hr ht lt).next fun _ => .pure rfl
  refine Lockstep.get.bind fun s s' hs => ?_
  rw [hs.markup]
  dsimp only
  split
  · split
    · exact (emitText_lockstep _ _ _).next fun _ => hclosing
    · exact hclosing
  split
  · exact (comment_lockstep lt).next fun _ => .pure rfl
  split
  · split
    · exact (emitText_lockstep _ _ _).next fun _ => helement
    · exact helement
  · refine (skip_lockstep _).next fun _ => ?_
    split
    · exact (emitText_lockstep _ _ _).next fun _ => .pure rfl
    · exact (emit_lockstep rfl).next fun _ => .pure rfl

theorem goOn_lockstep (ht : P.Uses t t') : P.Lockstep (goOn t) (goOn t') Eq := by
  refine Lockstep.get.bind fun s s' hs => ?_
  have hgone : P.Alike { s with broken := false } { s' with broken := false } :=
    { hs with broken := rfl }
  rw [hs.broken]
  split
  · exact (Lockstep.set hgone).next fun _ => .pure rfl
  · exact ht.resume

theorem turn_lockstep (hr : r.Blind) (ht : P.Uses t t') : P.Lockstep (r.turn t) (r.turn t') Eq := by
  refine checkStop_lockstep.next fun _ => ?_
  refine rest_lockstep.bind ?_
  rintro ts _ ⟨rfl, hts⟩
  cases ts with
  | nil => exact .pure rfl
  | cons tok ts =>
    refine (setLast_lockstep _).next fun _ => ?_
    refine Lockstep.get.bind fun s s' hs => ?_
    rw [hs.markup, hs.atStatementStart]
    split
    · refine (skip_lockstep _).next fun _ => ?_
      exact (emitText_lockstep _ _ _).next fun _ => goOn_lockstep ht
    · rename_i f cs haction
      refine (skip_lockstep _).next fun _ => ?_
      rw [Token.eq_of_action_group haction] at hts
      exact (group_lockstep ht _ hts.inner).next fun _ => goOn_lockstep ht
    · exact (marker_lockstep hr ht _).next fun _ => goOn_lockstep ht
    · refine (tagEntry_lockstep hr ht _ _).next fun closing => ?_
      cases closing with
      | some c => exact .pure rfl
      | none => exact goOn_lockstep ht
    · exact (expression_lockstep ht).bind fun ns ns' hns =>
        (emit_lockstep hns).next fun _ => goOn_lockstep ht
    · refine (skip_lockstep _).next fun _ => ?_
      exact (emit_lockstep rfl).next fun _ => goOn_lockstep ht
    · exact (code_lockstep ht _).next fun _ => goOn_lockstep ht
    · exact .pure rfl

/-- Contents are found alike, given the files and how the two runs parse an included template. -/
structure Finds (P : Pairing) (settings settings' : Settings)
    (embed embed' : Text → Text → ParseM Fragment) : Prop where
  alike : settings' = { settings with files := settings'.files }
  cached : ∀ t t' : Tools, t.settings = settings → t'.settings = settings' → t.embed = embed →
    t'.embed = embed' → ∀ kind name pos, Directive.Names [kind.directive] P.tokens name →
    P.Lockstep (Directive.cachedContent t kind name pos (Directive.convert t pos kind))
      (Directive.cachedContent t' kind name pos (Directive.convert t' pos kind)) SameBare
  fresh : ∀ t t' : Tools, t.settings = settings → t'.settings = settings' → t.embed = embed →
    t'.embed = embed' → ∀ name pos, Directive.Names Directive.readingNames P.tokens name →
    P.Lockstep (Directive.freshContent t name pos (Directive.embedTemplate t pos))
      (Directive.freshContent t' name pos (Directive.embedTemplate t' pos)) SameBare

section Runs
variable {settings settings' : Settings} {embed embed' : Text → Text → ParseM Fragment}

/-- If contents are found alike, two runs over a file stay in step to its end. -/
theorem loop_lockstep (hr : r.Blind) (hfinds : P.Finds settings settings' embed embed') (n : Nat) :
    P.Lockstep (r.loop settings embed n) (r.loop settings' embed' n) Eq := by
  induction n with
  | zero => exact .throw _
  | succ n ih =>
    exact turn_lockstep hr ⟨hfinds.alike, rfl, ih, hfinds.cached _ _ rfl rfl rfl rfl,
      hfinds.fresh _ _ rfl rfl rfl rfl⟩

theorem readTokens_lockstep (hr : r.Blind) (hfinds : P.Finds settings settings' embed embed') (n : Nat)
    (tokens : List Token) (trailing : Text) :
    P.Lockstep (r.readTokens settings embed n tokens trailing)
      (r.readTokens settings' embed' n tokens trailing) Eq := by
  refine checkStop_lockstep.next fun _ => ?_
  refine (loop_lockstep hr hfinds n).next fun closing => ?_
  cases closing with
  | some c => exact .fail _ _
  | none => exact emitText_lockstep _ _ _

end Runs

end Pairing
end Atmark
