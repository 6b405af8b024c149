import Atmark.Proofs.Node.Nesting
import Atmark.Proofs.Parse.Lockstep
import Atmark.Proofs.Token.Inside

/-! What the run over a file keeps to. A `Contract` says which errors may end the run, which contents may be
left for later, and what holds of its declarations, its records and its cache; the laws of the contract say
what each kind of step does to these. A step that starts at some tokens then goes on with a rest of them
(`From`), so the turns that a file is given never run out, and every position it names belongs to a token of
the file (`Placed`). Every function of the parser keeps the contract if the directives do (`loop_meets`). -/
namespace Atmark
open Node ParseM

/-! ## Steps and what they end with -/

namespace ParseM
variable {α β : Type}

/-- From a state with `P` the step ends with a result and a state that have `Q`, or with an error that
has `E`. -/
def Meets (E : Error → Prop) (P : State → Prop) (m : ParseM α) (Q : α → State → Prop) : Prop :=
  ∀ s, P s → match m s with
    | .ok a t => Q a t
    | .error e _ => E e

namespace Meets
variable {E : Error → Prop} {P P' : State → Prop} {Q Q' : α → State → Prop} {R : β → State → Prop}

theorem bind {m : ParseM α} {f : α → ParseM β} (hm : Meets E P m Q)
    (hf : ∀ a, Meets E (Q a) (f a) R) : Meets E P (m >>= f) R := by
  intro s hs
  have h := hm s hs
  simp only [Bind.bind, EStateM.bind]
  cases hms : m s with
  | ok a t =>
    rw [hms] at h
    exact hf a t h
  | error e t =>
    rw [hms] at h
    exact h

theorem pure {a : α} (h : ∀ s, P s → Q a s) : Meets E P (Pure.pure a) Q := h

theorem throw {e : Error} (h : E e) : Meets E P (MonadExcept.throw e : ParseM α) Q := fun _ _ => h

theorem fail {pos : Option Position} {cause : Fault} (h : E (.at? pos cause)) :
    Meets E P (ParseM.fail pos cause) Q := throw h

theorem modify {f : State → State} {Q : PUnit → State → Prop} (h : ∀ s, P s → Q ⟨⟩ (f s)) :
    Meets E P (modify f : ParseM PUnit) Q := h

theorem pre {m : ParseM α} (h : Meets E P m Q) (hp : ∀ s, P' s → P s) : Meets E P' m Q :=
  fun s hs => h s (hp s hs)

theorem post {m : ParseM α} (h : Meets E P m Q) (hq : ∀ a s, Q a s → Q' a s) : Meets E P m Q' := by
  intro s hs
  have hm := h s hs
  cases hms : m s with
  | ok a t =>
    rw [hms] at hm
    exact hq a t hm
  | error e t =>
    rw [hms] at hm
    exact hm

/-- What is known of a result is known of what follows it. -/
theorem given {p : Prop} {m : ParseM α} (h : p → Meets E P m Q) : Meets E (fun s => p ∧ P s) m Q :=
  fun s hs => h hs.1 s hs.2

theorem get {f : State → ParseM α} (h : ∀ x, P x → Meets E (fun s => s = x) (f x) Q) :
    Meets E P (MonadState.get >>= f) Q := fun s hs => h s hs s rfl

/-- A look at the state, where only what is known of all states matters. -/
theorem look {f : State → ParseM α} (h : ∀ x, P x → Meets E P (f x) Q) :
    Meets E P (MonadState.get >>= f) Q := fun s hs => h s hs s hs

theorem set {x : State} {m : ParseM α} (h : Meets E (fun s => s = x) m Q) :
    Meets E P (do MonadStateOf.set x; m) Q := fun _ _ => h x rfl

/-- Whatever follows a check that fails is only reached when it does not. -/
theorem guard {c : Prop} [Decidable c] {pos : Option Position} {cause : Fault} {m : Unit → ParseM α}
    (he : c → E (.at? pos cause)) (h : ¬c → Meets E P (m ()) Q) :
    Meets E P (if c then ParseM.fail pos cause >>= m else m ()) Q := by
  split
  · rename_i hc
    exact (fail (Q := fun _ _ => False) (he hc)).bind fun _ _ hf => hf.elim
  · rename_i hc
    exact h hc

end Meets
end ParseM

/-! ## Tokens and their places -/

namespace Token

/-- The position is that of a token of the file, at any depth. -/
def Placed (tokens : List Token) (pos : Option Position) : Prop := ∃ t, Inside t tokens ∧ t.pos = pos

theorem Inside.child {tokens cs : List Token} {f : Frame} {t : Token} (h : Inside (.group f cs) tokens)
    (ht : t ∈ cs) : Inside t tokens := by
  induction h with
  | here hg => exact .within hg (.here ht)
  | within hg _ ih => exact .within hg ih

namespace Part
variable {all ts us : List Token} {t : Token}

theorem inside (h : Part all ts) (ht : t ∈ ts) : Inside t all := by
  induction h generalizing t with
  | whole => exact .here ht
  | tail _ ih => exact ih (.tail _ ht)
  | inner _ ih => exact (ih (.head _)).child ht

theorem placed (h : Part all ts) (ht : t ∈ ts) : Placed all t.pos := ⟨t, h.inside ht, rfl⟩

theorem suffix (h : Part all ts) (hs : us <:+ ts) : Part all us := by
  rw [List.suffix_iff_eq_drop.mp hs]
  exact h.drop _

theorem ne_nil (h : Part all ts) (ht : t ∈ ts) : all ≠ [] := by
  rintro rfl
  cases h.inside ht with
  | here h => cases h
  | within h => cases h

end Part

theorem weight_pos (t : Token) : 0 < weight t := by
  cases t <;> simp [weight]

theorem weights_append (ts us : List Token) : weights (ts ++ us) = weights ts + weights us := by
  induction ts with
  | nil => simp [weights]
  | cons t ts ih => simp [weights, ih, Nat.add_assoc]

theorem weights_suffix {ts us : List Token} (h : us <:+ ts) : weights us ≤ weights ts := by
  obtain ⟨before, rfl⟩ := h
  rw [weights_append]
  exact Nat.le_add_left _ _

theorem weights_tail_lt (t : Token) (ts : List Token) : weights ts < weights (t :: ts) := by
  have := weight_pos t
  simp only [weights]
  omega

theorem weights_group_lt {f : Frame} {cs ts : List Token} (h : .group f cs ∈ ts) :
    weights cs < weights ts := by
  obtain ⟨before, after, rfl⟩ := List.append_of_mem h
  simp only [weights_append, weights, weight]
  omega

end Token

/-! ## Nodes that are read later -/

namespace Node

theorem allWithin_iff {p : Node → Prop} {ns : List Node} :
    AllWithin p ns ↔ ∀ n ∈ ns, p n ∧ ∀ l ∈ n.lists, AllWithin p l := by
  induction ns with
  | nil => simp [AllWithin.nil]
  | cons n ns ih => simp [allWithin_cons, ih, and_assoc]

/-- The node leaves nothing for later but what `later` allows: a position, a name, the file that mentions
it, and whether it is Markdown. -/
def postpones (later : Option Position → Text → Text → Bool → Prop) : Node → Prop
  | .external pos name includer markdown => later pos name includer markdown
  | _ => True

/-- The nodes leave nothing for later but what `later` allows, at every depth. -/
def Postpone (later : Option Position → Text → Text → Bool → Prop) (ns : List Node) : Prop :=
  AllWithin (postpones later) ns

namespace Postpone
variable {later : Option Position → Text → Text → Bool → Prop} {ns ms : List Node}

theorem nil : Postpone later [] := AllWithin.nil

theorem cons {n : Node} (hn : n.postpones later) (hl : ∀ l ∈ n.lists, Postpone later l)
    (h : Postpone later ns) : Postpone later (n :: ns) := allWithin_cons.mpr ⟨hn, hl, h⟩

theorem append (h : Postpone later ns) (h' : Postpone later ms) : Postpone later (ns ++ ms) := by
  refine allWithin_iff.mpr fun n hn => ?_
  rcases List.mem_append.mp hn with hn | hn
  · exact allWithin_iff.mp h n hn
  · exact allWithin_iff.mp h' n hn

theorem reverse (h : Postpone later ns) : Postpone later ns.reverse :=
  allWithin_iff.mpr fun n hn => allWithin_iff.mp h n (List.mem_reverse.mp hn)

/-- Nodes that hold no others and are read at once. -/
theorem of_leaves (h : ∀ n ∈ ns, n.postpones later ∧ n.lists = []) : Postpone later ns :=
  allWithin_iff.mpr fun n hn => ⟨(h n hn).1, by simp [(h n hn).2]⟩

/-- Nothing is asked of what is left for later. -/
theorem of_forall (h : ∀ pos name includer markdown, later pos name includer markdown) :
    Postpone later ns := by
  intro l _ n _
  cases n with
  | external pos name includer markdown => exact h pos name includer markdown
  | _ => trivial

/-- A node that is read at once, with the nodes it holds. -/
theorem single {n : Node} (hn : n.postpones later) (hl : ∀ l ∈ n.lists, Postpone later l) :
    Postpone later [n] := .cons hn hl .nil

theorem push (h : Postpone later ns) {s : State} (hs : Postpone later s.sink) :
    Postpone later (ns.foldl State.push s).sink := by
  have hall := hs.reverse.append h
  refine allWithin_iff.mpr fun n hn => ?_
  rcases (State.foldl_push_trimmed ns s).mem (List.mem_reverse.mpr hn) with ht | hn
  · cases n with
    | text => exact ⟨trivial, by simp [lists]⟩
    | _ => cases ht
  · exact allWithin_iff.mp hall n hn

end Postpone

mutual

theorem ofToken_postpone {later : Option Position → Text → Text → Bool → Prop} (t : Token) :
    (ofToken t).postpones later ∧ ∀ l ∈ (ofToken t).lists, Postpone later l := by
  match t with
  | .ident _ | .literal _ | .punct _ => exact ⟨trivial, by simp [ofToken, lists]⟩
  | .group f ts =>
    refine ⟨trivial, ?_⟩
    intro l hl
    rw [ofToken, lists, List.mem_singleton] at hl
    rw [hl]
    exact ofTokensFrom_postpone false ts

theorem ofTokensFrom_postpone {later : Option Position → Text → Text → Bool → Prop} (skip : Bool)
    (ts : List Token) : Postpone later (ofTokensFrom skip ts) := by
  match ts with
  | [] => exact .nil
  | t :: ts =>
    unfold ofTokensFrom
    split
    · exact ofTokensFrom_postpone false ts
    · split
      · exact .cons trivial (by simp [lists]) (ofTokensFrom_postpone true ts)
      · exact .cons (ofToken_postpone t).1 (ofToken_postpone t).2 (ofTokensFrom_postpone false ts)

end

end Node

/-! ## What a directive declares -/

/-- What a directive can declare. -/
inductive Declaration where
  | use (i : Import)
  | inject (stmt : List Token)
  | model (type : List Token) (pos : Option Position)
  | name (value : Text) (pos : Option Position)
  | parameter (key value : Text) (pos : Option Position)
  | code (key : Text) (frame : Frame) (block : List Token)

namespace Declaration

/-- The declarations after one more. -/
def addTo (d : Declarations) : Declaration → Declarations
  | .use i => d.addImport i
  | .inject stmt => d.addInject stmt
  | .model type pos => { d with model := some type, modelPos := pos }
  | .name value pos => { d with name := value, namePos := pos }
  | .parameter key value pos => { d with parameters := d.parameters ++ [(key, value, pos)] }
  | .code key f block =>
    d.putSection key (Directive.joinBlocks ((d.sectionOf? key).getD []) f block)

/-- What a declaration asks of the declarations before it. -/
def IsNew (d : Declarations) : Declaration → Prop
  | .model .. => d.model = none
  | .name .. => d.namePos = none
  | .parameter key .. => ∀ p ∈ d.parameters, p.1 ≠ key
  | _ => True

/-- An import or a statement; anything else is about the view, and an included file must not declare it. -/
def isShared : Declaration → Bool
  | .use _ | .inject _ => true
  | _ => false

end Declaration

namespace Directive

/-- The string at the head of the tokens. -/
def stringAt? : List Token → Option Text
  | .literal l :: _ => if l.isString then l.value? else none
  | _ => none

/-- The import at the head of the tokens after the directive. -/
def importAt? : List Token → Option Import
  | .ident t :: ts => (stringAt? ts).map (⟨t.name, ·⟩)
  | .punct p :: ts => if p.char = '.' then (stringAt? ts).map (⟨utf8 ".", ·⟩) else none
  | ts => (stringAt? ts).map (⟨[], ·⟩)

/-- Something follows the directive on its line, after white space. -/
def followsOnLine (ts : List Token) : Bool := ts.head?.any fun t => !t.glued && !Text.breaksLine t.space

/-- The directives that declare something about the view. -/
def viewNames : List Text :=
  ["model", "name", "viewstart", "lang", "functions", "struct", "impl"].map utf8

/-- The directives that leave the content of a file for later. -/
def laterNames : List Text := ["htmlfile_nocache", "markdownfile_nocache"].map utf8

/-- What a directive declares with the tokens after it. -/
inductive Declares (id : Ident) (ts : List Token) : Option Declaration → Prop
  | use {i : Import} : id.name = utf8 "use" → importAt? ts = some i → Declares id ts (some (.use i))
  | inject : id.name = utf8 "inject" → Declares id ts (some (.inject (statement true ts).1))
  /-- The type is the one that is read at these tokens. -/
  | model {s s' : State} {type : List Token} : id.name = utf8 "model" → followsOnLine ts = true →
      s.stream.rest = ts → Returns typeName s type s' → Declares id ts (some (.model type id.pos))
  /-- Without a type on its line the word means the model itself. -/
  | modelValue : id.name = utf8 "model" → followsOnLine ts = false → Declares id ts none
  | name {value : Text} : id.name = utf8 "name" → stringAt? ts = some value →
      Declares id ts (some (.name value id.pos))
  | parameter {value : Text} : id.name = utf8 "viewstart" ∨ id.name = utf8 "lang" →
      stringAt? ts = some value → Declares id ts (some (.parameter id.name value id.pos))
  | code {f : Frame} {block rest : List Token} :
      id.name = utf8 "functions" ∨ id.name = utf8 "struct" ∨ id.name = utf8 "impl" →
      ts = .group f block :: rest → f.delim = .brace → Declares id ts (some (.code id.name f block))
  | nothing : id.name ≠ utf8 "use" → id.name ≠ utf8 "inject" → id.name ∉ viewNames → Declares id ts none

end Directive

/-- The declarations of a file after those of a template that it includes. -/
def Declarations.merge (d : Declarations) (f : Fragment) : Declarations :=
  f.injects.foldl addInject (f.imports.foldl addImport d)

namespace State

/-- The state after a debug record. -/
def noted (s : State) (message : String) (fields : List (String × Text)) : State :=
  { s with world := { s.world with log :=
      { message, fields := [("component", utf8 "parser"), ("path", s.path)] ++ fields } :: s.world.log } }

/-- The state after the record of a directive. -/
def directed (s : State) (id : Ident) : State :=
  s.noted "directive" [("name", id.name), ("pos", (id.pos.getD .zero).label)]

/-- The state after a fragment is put under a key of the cache, if there is one. -/
def cached (s : State) (key : Text) (f : Fragment) : State :=
  { s with world := { s.world with cache := s.world.cache.map (·.put key f) } }

end State

/-- What is said of a state is said of its declarations, its records and its cache alone. -/
def Framed (I : State → Prop) : Prop :=
  ∀ s s', I s → s'.declared = s.declared → s'.world.log = s.world.log →
    s'.world.cache = s.world.cache → I s'

/-! ## Contracts -/

/-- What the run over a file keeps to. -/
structure Contract where
  settings : Settings
  path : Text
  includers : List Text
  tokens : List Token
  /-- The errors that may end the run. -/
  error : Error → Prop
  /-- What may be left for later. -/
  later : Option Position → Text → Text → Bool → Prop
  /-- What holds between the steps. -/
  inv : State → Prop
  /-- What holds while the declarations of an included template are still to be merged. -/
  pending : Fragment → State → Prop
  stopped : ∀ pos cause, error (.stopped [] pos cause)
  unread : ∀ pos file fallback cause, error (.content [] pos file fallback cause)
  fault : ∀ {pos : Option Position}, Token.Placed tokens pos →
    ∀ cause, (∀ chain, cause ≠ .cycle chain) → error (.at? pos cause)
  postponed : ∀ {pos : Option Position} {name : Text}, Token.Placed tokens pos →
    Directive.Names Directive.laterNames tokens name → ∀ markdown, later pos name path markdown
  framed : Framed inv
  pendingFramed : ∀ f, Framed (pending f)
  note : ∀ {s : State} {message : String} (fields : List (String × Text)), message ≠ "directive" →
    inv s → inv (s.noted message fields)
  directive : ∀ {s : State} {id : Ident} {ts : List Token} {d : Option Declaration},
    Token.Part tokens (.ident id :: ts) → Directive.Declares id ts d →
    (∀ x ∈ d, x.IsNew s.declared ∧ (x.isShared = false → includers = [])) → s.path = path → inv s →
    inv { s.directed id with declared := d.elim s.declared (·.addTo s.declared) }
  merge : ∀ {s : State} {f : Fragment}, pending f s → inv { s with declared := s.declared.merge f }
  hit : ∀ {s : State} {c : Cache} {key : Text} {f : Fragment}, inv s → s.world.cache = some c →
    c.get? key = some f → Postpone later f.nodes ∧ pending f s
  put : ∀ {s : State} (key : Text) {f : Fragment}, Postpone later f.nodes → inv s → inv (s.cached key f)
  pendingPut : ∀ {s : State} (key : Text) {f : Fragment}, Postpone later f.nodes → pending f s →
    pending f (s.cached key f)

namespace Contract

/-- The run stands in the file of the contract, and `I` holds. -/
structure Holds (C : Contract) (I : State → Prop) (s : State) : Prop where
  path : s.path = C.path
  includers : s.includers = C.includers
  part : Token.Part C.tokens s.stream.rest
  stop : C.tokens ≠ [] → Token.Placed C.tokens s.stream.stop
  sink : Postpone C.later s.sink
  inv : I s

/-- The run stands at these tokens. -/
def At (C : Contract) (I : State → Prop) (ts : List Token) (s : State) : Prop :=
  C.Holds I s ∧ s.stream.rest = ts

/-- The run stands at a rest of these tokens. -/
def From (C : Contract) (I : State → Prop) (ts : List Token) (s : State) : Prop :=
  C.Holds I s ∧ s.stream.rest <:+ ts

variable {C : Contract} {I : State → Prop} {ts us : List Token} {α : Type} {Q : α → State → Prop}

theorem At.from {s : State} (h : C.At I ts s) : C.From I ts s := ⟨h.1, h.2 ▸ List.suffix_rfl⟩

theorem From.mono {s : State} (h : C.From I us s) (hs : us <:+ ts) : C.From I ts s :=
  ⟨h.1, h.2.trans hs⟩

theorem Holds.frame (hI : Framed I) {s s' : State} (h : C.Holds I s) (hpath : s'.path = s.path)
    (hincluders : s'.includers = s.includers) (hstream : s'.stream = s.stream)
    (hsink : s'.sink = s.sink) (hdeclared : s'.declared = s.declared)
    (hlog : s'.world.log = s.world.log) (hcache : s'.world.cache = s.world.cache) : C.Holds I s' :=
  ⟨hpath.trans h.path, hincluders.trans h.includers, by rw [hstream]; exact h.part,
    by rw [hstream]; exact h.stop, by rw [hsink]; exact h.sink, hI s s' h.inv hdeclared hlog hcache⟩

/-! ## Small steps -/

/-- The tokens that the run stands at are a part of the file. -/
theorem at_intro {m : ParseM α} (h : Token.Part C.tokens ts → Meets C.error (C.At I ts) m Q) :
    Meets C.error (C.At I ts) m Q := fun s hs => h (hs.2 ▸ hs.1.part) s hs

theorem from_intro {m : ParseM α}
    (h : ∀ us, us <:+ ts → Token.Part C.tokens us → Meets C.error (C.At I us) m Q) :
    Meets C.error (C.From I ts) m Q := fun s hs => h _ hs.2 hs.1.part s ⟨hs.1, rfl⟩

theorem rest_meets {f : List Token → ParseM α} (h : Meets C.error (C.At I ts) (f ts) Q) :
    Meets C.error (C.At I ts) (rest >>= f) Q := by
  intro s hs
  have hf := h s hs
  rw [← hs.2] at hf
  exact hf

theorem peek_meets {f : Option Token → ParseM α} (h : Meets C.error (C.At I ts) (f ts.head?) Q) :
    Meets C.error (C.At I ts) (peek >>= f) Q := by
  intro s hs
  have hf := h s hs
  rw [← hs.2] at hf
  exact hf

theorem unexpected_meets {P : State → Prop} {t : Token} (ht : Token.Placed C.tokens t.pos) (c : Context) :
    Meets C.error P (unexpected t c) Q :=
  .fail (C.fault ht _ (by simp))

theorem expect_fault {pos : Option Position} (h : Token.Placed C.tokens pos) {cause : Fault}
    (hc : ∀ chain, cause ≠ .cycle chain) : C.error (.at? pos cause) := C.fault h cause hc

section Framed
variable (hI : Framed I)
include hI

theorem skip_meets (k : Nat) :
    Meets C.error (C.At I ts) (skip k) fun _ => C.At I (ts.drop k) := by
  refine .modify fun s hs => ⟨⟨hs.1.path, hs.1.includers, ?_, ?_, hs.1.sink, ?_⟩, ?_⟩
  · simpa using hs.1.part.drop k
  · simpa using hs.1.stop
  · exact hI s _ hs.1.inv rfl rfl rfl
  · simp [hs.2]

theorem setLast_meets (pos : Option Position) :
    Meets C.error (C.At I ts) (setLast pos) fun _ => C.At I ts :=
  .modify fun _ hs => ⟨hs.1.frame hI rfl rfl rfl rfl rfl rfl rfl, hs.2⟩

theorem trimLine_meets : Meets C.error (C.At I ts) trimLine fun _ => C.At I ts :=
  .modify fun _ hs => ⟨hs.1.frame hI rfl rfl rfl rfl rfl rfl rfl, hs.2⟩

theorem checkStop_meets : Meets C.error (C.At I ts) checkStop fun _ => C.At I ts := by
  refine .get fun x hx => ?_
  split
  · exact .pure fun s hs => hs ▸ hx
  · exact .throw (C.stopped _ _)
  · exact fun _ _ => ⟨hx.1.frame hI rfl rfl rfl rfl rfl rfl rfl, hx.2⟩

theorem emit_meets {ns : List Node} (h : Postpone C.later ns) :
    Meets C.error (C.At I ts) (emit ns) fun _ => C.At I ts := by
  refine .modify fun s hs => ?_
  have hsink := h.push hs.1.sink
  obtain ⟨sink, trimLine, hf⟩ := s.foldl_push_frame ns
  rw [hf] at hsink ⊢
  exact ⟨⟨hs.1.path, hs.1.includers, hs.1.part, hs.1.stop, hsink, hI s _ hs.1.inv rfl rfl rfl⟩, hs.2⟩

theorem emitText_meets (t : Text) (pos : Option Position) :
    Meets C.error (C.At I ts) (emitText t pos) fun _ => C.At I ts := by
  have htext : Postpone C.later [.text pos t] := .single trivial (by simp [lists])
  exact emit_meets hI htext

end Framed

end Contract
end Atmark
