import Atmark.Parse.Tag
import Atmark.Proofs.Node.Nesting
import Atmark.Proofs.Token.Grounded

/-! Nodes that an operation can rely on. Every node has a position, a tag has the tokens of its name, a literal its
quotes, and an attribute value comes right after its equals sign and is what its tokens say (`AllGrounded`). Code
that is copied is grounded because its tokens are, and adding grounded nodes to a region keeps it so, since a
text that joins the text before it keeps the position of that one. -/
namespace Atmark

/-- The quote in which the value that starts with the token is written; a value that is no string, no character
literal and not between apostrophes has none, and neither has a raw string. -/
def Token.openingQuote? : Token → Option UInt8
  | .literal l =>
    if l.kind = .int || l.kind = .float then none else l.raw.head?.filter fun q => q == 0x22 || q == 0x27
  | .punct p => if p.char = '\x27' then some 0x27 else none
  | _ => none

/-- The token starts a value without quotes. -/
def Token.startsRun : Token → Bool
  | .ident _ => true
  | .punct p => p.char = '-' || p.char = '_'
  | _ => false

/-- The value that is spelled from the token on, if it is no expression. -/
def Token.valueText? (t : Token) (ts : List Token) : Option Text :=
  if t.startsRun then some (Token.sourceOf (t :: ts.takeWhile Token.continuesRun))
  else match t with
    | .literal l => some l.content
    | .punct p =>
      if p.char = '\x27' then (untilApostrophe ts).map fun (us, space) => Token.sourceWithSpace us ++ space
      else none
    | _ => none

namespace Node

/-- The value of an attribute is read from the tokens of a source that `S` has. -/
inductive ReadValue (S : Text → Prop) : Option Position → StaticValue → List Node → Prop
  | number {l : Literal} {ts : List Token} : Token.ReadFrom S (.literal l :: ts) →
      (l.kind = .int || l.kind = .float) = true → ReadValue S l.pos { literal := some l } []
  | quoted {l : Literal} {ts : List Token} : Token.ReadFrom S (.literal l :: ts) →
      (l.kind = .int || l.kind = .float) = false →
      ReadValue S l.pos
        { text := some l.content, quote := l.raw.head?.filter fun q => q == 0x22 || q == 0x27 } []
  | apostrophes {p : Punct} {ts us : List Token} {space : Text} : Token.ReadFrom S (.punct p :: ts) →
      p.char = '\x27' → untilApostrophe ts = some (us, space) →
      ReadValue S p.pos { text := some (Token.sourceWithSpace us ++ space), quote := some 0x27 } []
  | run {t : Token} {ts : List Token} : Token.ReadFrom S (t :: ts) → t.startsRun = true →
      ReadValue S t.pos { run := t :: ts.takeWhile Token.continuesRun } []
  | expression {p : Punct} {ts : List Token} {expr : List Node} : Token.ReadFrom S (.punct p :: ts) →
      p.char = '@' → expr ≠ [] → ReadValue S p.pos {} expr

variable {S S' : Text → Prop}

theorem ReadValue.mono {pos : Option Position} {v : StaticValue} {expr : List Node}
    (h : ReadValue S pos v expr) (hS : ∀ src, S src → S' src) : ReadValue S' pos v expr := by
  cases h with
  | number hread hkind => exact .number (hread.mono hS) hkind
  | quoted hread hkind => exact .quoted (hread.mono hS) hkind
  | apostrophes hread hp hus => exact .apostrophes (hread.mono hS) hp hus
  | run hread hstarts => exact .run (hread.mono hS) hstarts
  | expression hread hp hne => exact .expression (hread.mono hS) hp hne

/-- What the value of an expression is does not matter, as long as there is one. -/
theorem ReadValue.congr {pos : Option Position} {v : StaticValue} {expr expr' : List Node}
    (h : ReadValue S pos v expr) (hempty : expr' = [] ↔ expr = []) : ReadValue S pos v expr' := by
  cases h with
  | number hread hkind =>
    rw [hempty.mpr rfl]
    exact .number hread hkind
  | quoted hread hkind =>
    rw [hempty.mpr rfl]
    exact .quoted hread hkind
  | apostrophes hread hp hus =>
    rw [hempty.mpr rfl]
    exact .apostrophes hread hp hus
  | run hread hstarts =>
    rw [hempty.mpr rfl]
    exact .run hread hstarts
  | expression hread hp hne => exact .expression hread hp fun h => hne (hempty.mp h)

theorem ReadValue.pos {pos : Option Position} {v : StaticValue} {expr : List Node}
    (h : ReadValue S pos v expr) : pos.isSome = true := by
  cases h with
  | number hread | quoted hread | apostrophes hread | run hread | expression hread => exact hread.pos

/-- What stands in the node is there: the tokens of a tag name, the quotes of a literal, the tokens of a value. -/
def HasParts (S : Text → Prop) : Node → Prop
  | .literal l | .attrName _ _ _ (some l) => l.Quoted
  | .tagStart _ ts | .tagVoid _ ts | .tagEnd _ _ ts => ts ≠ []
  | .attrValue pos v expr => ReadValue S pos v expr
  | _ => True

/-- An operation on the node finds what it takes for granted. -/
structure Grounded (S : Text → Prop) (n : Node) : Prop where
  pos : n.pos.isSome = true
  parts : n.HasParts S

theorem Grounded.mono {n : Node} (h : n.Grounded S) (hS : ∀ src, S src → S' src) : n.Grounded S' := by
  refine ⟨h.pos, ?_⟩
  have hparts := h.parts
  cases n with
  | attrValue => exact hparts.mono hS
  | attrName _ _ _ quoted => cases quoted <;> exact hparts
  | _ => exact hparts

/-- An attribute value. -/
def isValue : Node → Bool
  | .attrValue .. => true
  | _ => false

/-- An equals sign that was read. -/
def isEquals : Node → Bool
  | .attrEquals pos => pos.isSome
  | _ => false

/-- Every attribute value comes right after an equals sign; `after` says that one stands before the nodes. -/
def valuesFollow (after : Bool) : List Node → Bool
  | [] => true
  | n :: ns => (after || !n.isValue) && valuesFollow n.isEquals ns

theorem valuesFollow_of_false {ns : List Node} (h : valuesFollow false ns = true) (after : Bool) :
    valuesFollow after ns = true := by
  cases ns with
  | nil => rfl
  | cons n ns =>
    simp only [valuesFollow, Bool.false_or, Bool.and_eq_true] at h
    simp [valuesFollow, h]

theorem valuesFollow_append {after : Bool} {ns ms : List Node} (hn : valuesFollow after ns = true)
    (hm : valuesFollow false ms = true) : valuesFollow after (ns ++ ms) = true := by
  induction ns generalizing after with
  | nil => exact valuesFollow_of_false hm after
  | cons n ns ih =>
    simp only [valuesFollow, Bool.and_eq_true, List.cons_append] at hn ⊢
    exact ⟨hn.1, ih hn.2⟩

/-- No text stands between a value and its equals sign, so texts may change or be left out. -/
theorem valuesFollow_trimmed {after : Bool} {ns ms : List Node} (h : Trimmed ns ms)
    (hn : valuesFollow after ns = true) : valuesFollow after ms = true := by
  induction h generalizing after with
  | nil => rfl
  | keep _ ih =>
    simp only [valuesFollow, Bool.and_eq_true] at hn ⊢
    exact ⟨hn.1, ih hn.2⟩
  | drop _ ih =>
    simp only [valuesFollow, Bool.and_eq_true] at hn
    exact valuesFollow_of_false (ih hn.2) after
  | change _ ih =>
    simp only [valuesFollow, Bool.and_eq_true] at hn ⊢
    exact ⟨by simp [isValue], ih hn.2⟩

/-- The node before a value is an equals sign with its position. -/
theorem exists_equals {after : Bool} {before behind : List Node} {pos : Option Position} {v : StaticValue}
    {expr : List Node} (h : valuesFollow after (before ++ .attrValue pos v expr :: behind) = true)
    (hafter : before = [] → after = false) : ∃ p front, before = front ++ [.attrEquals (some p)] := by
  induction before generalizing after with
  | nil => simp [valuesFollow, hafter rfl, isValue] at h
  | cons n before ih =>
    simp only [List.cons_append, valuesFollow, Bool.and_eq_true] at h
    cases before with
    | nil =>
      have hequals : n.isEquals = true := by simpa [valuesFollow, isValue] using (Bool.and_eq_true_iff.mp h.2).1
      cases n with
      | attrEquals at' =>
        obtain ⟨p, rfl⟩ := Option.isSome_iff_exists.mp hequals
        exact ⟨p, [], rfl⟩
      | _ => cases hequals
    | cons m before =>
      obtain ⟨p, front, hfront⟩ := ih h.2 (by simp)
      exact ⟨p, n :: front, by rw [hfront]; rfl⟩

/-- All nodes are grounded and all values follow their equals signs, at every depth. -/
def AllGrounded (S : Text → Prop) (ns : List Node) : Prop :=
  ∀ l, Within l ns → (∀ n ∈ l, n.Grounded S) ∧ valuesFollow false l = true

theorem allGrounded_iff {ns : List Node} : AllGrounded S ns ↔
    (∀ n ∈ ns, n.Grounded S ∧ ∀ l ∈ n.lists, AllGrounded S l) ∧ valuesFollow false ns = true := by
  constructor
  · intro h
    refine ⟨fun n hn => ⟨(h ns .self).1 n hn, ?_⟩, (h ns .self).2⟩
    exact fun l hl k hk => h k (.inner hn hl hk)
  · rintro ⟨hn, hfollow⟩ l hl
    cases hl with
    | self => exact ⟨fun n hm => (hn n hm).1, hfollow⟩
    | inner hm hk hw => exact (hn _ hm).2 _ hk l hw

namespace AllGrounded
variable {n : Node} {ns ms : List Node}

theorem mono (h : AllGrounded S ns) (hS : ∀ src, S src → S' src) : AllGrounded S' ns :=
  fun l hl => ⟨fun n hn => ((h l hl).1 n hn).mono hS, (h l hl).2⟩

theorem nil : AllGrounded S [] := allGrounded_iff.mpr ⟨by simp, rfl⟩

/-- A node that is no value of an attribute. -/
theorem cons (hn : n.Grounded S) (hl : ∀ l ∈ n.lists, AllGrounded S l) (hv : n.isValue = false)
    (h : AllGrounded S ns) : AllGrounded S (n :: ns) := by
  obtain ⟨hns, hfollow⟩ := allGrounded_iff.mp h
  refine allGrounded_iff.mpr ⟨fun m hm => ?_, ?_⟩
  · rcases List.mem_cons.mp hm with rfl | hm
    · exact ⟨hn, hl⟩
    · exact hns m hm
  · simp [valuesFollow, hv, valuesFollow_of_false hfollow]

theorem single (hn : n.Grounded S) (hl : ∀ l ∈ n.lists, AllGrounded S l) (hv : n.isValue = false) :
    AllGrounded S [n] := nil.cons hn hl hv

/-- A node that holds no others. -/
theorem leaf (hn : n.Grounded S) (hl : n.lists = []) (h : AllGrounded S ns) : AllGrounded S (n :: ns) := by
  refine h.cons hn (by simp [hl]) ?_
  cases n with
  | attrValue => cases hl
  | _ => rfl

theorem of_leaves (h : ∀ n ∈ ns, n.Grounded S ∧ n.lists = []) : AllGrounded S ns := by
  induction ns with
  | nil => exact nil
  | cons n ns ih =>
    obtain ⟨hn, hl⟩ := h n (.head _)
    exact (ih fun m hm => h m (.tail _ hm)).leaf hn hl

theorem append (hn : AllGrounded S ns) (hm : AllGrounded S ms) : AllGrounded S (ns ++ ms) := by
  obtain ⟨hns, hfollow⟩ := allGrounded_iff.mp hn
  obtain ⟨hms, hfollow'⟩ := allGrounded_iff.mp hm
  refine allGrounded_iff.mpr ⟨fun k hk => ?_, valuesFollow_append hfollow hfollow'⟩
  rcases List.mem_append.mp hk with hk | hk
  · exact hns k hk
  · exact hms k hk

/-- The node of a value stands after its equals sign. -/
theorem value {p : Position} {pos : Option Position} {v : StaticValue} {expr : List Node}
    (h : AllGrounded S ns) (hv : ReadValue S pos v expr) (he : AllGrounded S expr) :
    AllGrounded S (.attrEquals (some p) :: .attrValue pos v expr :: ns) := by
  obtain ⟨hns, hfollow⟩ := allGrounded_iff.mp h
  refine allGrounded_iff.mpr ⟨fun m hm => ?_, ?_⟩
  · rcases List.mem_cons.mp hm with rfl | hm
    · exact ⟨⟨rfl, trivial⟩, by simp [lists]⟩
    · rcases List.mem_cons.mp hm with rfl | hm
      · exact ⟨⟨hv.pos, hv⟩, by simpa [lists] using he⟩
      · exact hns m hm
  · simp [valuesFollow, isValue, isEquals, valuesFollow_of_false hfollow]

end AllGrounded

/-! ## Tokens as nodes -/

mutual

theorem ofToken_grounded (t : Token) (ht : t.Grounded) (hg : ∀ f cs, t = .group f cs → Token.AllGrounded cs) :
    (ofToken t).Grounded S ∧ ∀ l ∈ (ofToken t).lists, AllGrounded S l := by
  match t with
  | .ident _ | .punct _ => exact ⟨⟨ht.pos, trivial⟩, by simp [ofToken, lists]⟩
  | .literal l => exact ⟨⟨ht.pos, ht.quoted l rfl⟩, by simp [ofToken, lists]⟩
  | .group f ts =>
    refine ⟨⟨ht.pos, trivial⟩, fun l hl => ?_⟩
    rw [ofToken, lists, List.mem_singleton] at hl
    rw [hl]
    exact ofTokensFrom_grounded false ts (hg f ts rfl)

theorem ofTokensFrom_grounded (skip : Bool) (ts : List Token) (h : Token.AllGrounded ts) :
    AllGrounded S (ofTokensFrom skip ts) := by
  match ts with
  | [] => exact .nil
  | t :: ts =>
    unfold ofTokensFrom
    split
    · exact ofTokensFrom_grounded false ts h.tail
    · split
      · exact (ofTokensFrom_grounded true ts h.tail).leaf ⟨h.head.pos, trivial⟩ rfl
      · have hg (f : Frame) (cs : List Token) (ht : t = .group f cs) : Token.AllGrounded cs := by
          subst ht
          exact h.inner
        obtain ⟨hn, hl⟩ := ofToken_grounded t h.head hg
        exact (ofTokensFrom_grounded false ts h.tail).cons hn hl (by cases t <;> rfl)

end

theorem ofTokens_grounded {ts : List Token} (h : Token.AllGrounded ts) : AllGrounded S (ofTokens ts) :=
  ofTokensFrom_grounded false ts h

end Node

/-! ## Adding nodes to a region -/

namespace State
open Node
variable {S : Text → Prop}

/-- A text is dropped, starts a new node, or joins the text before it, which keeps its position but for the end. -/
theorem mem_pushText {s : State} {pos : Option Position} {t : Text} {n : Node}
    (h : n ∈ (s.pushText pos t).sink) : n ∈ s.sink ∨ n = .text pos t ∨
      ∃ p before stop more, .text p before ∈ s.sink ∧ n = .text (p.map (·.withStop stop)) (before ++ more) := by
  unfold pushText at h
  generalize (if s.trimLine then trimText t else (t, false)) = p at h
  obtain ⟨trimmed, line⟩ := p
  dsimp only at h
  split at h
  · exact .inl h
  · split at h
    · rename_i p before rest hsink
      rcases List.mem_cons.mp h with rfl | h
      · exact .inr (.inr ⟨p, before, _, trimmed, by simp [hsink], rfl⟩)
      · exact .inl (by simp [hsink, h])
    · rcases List.mem_cons.mp h with rfl | h
      · exact .inr (.inl rfl)
      · exact .inl h

/-- What is true of the nodes of a region and of the nodes added to it stays true if it does not depend on what a text
says or where it ends. -/
theorem foldl_push_all {P : Node → Prop}
    (htext : ∀ p t stop u, P (.text p t) → P (.text (p.map (·.withStop stop)) u)) {s : State} {ns : List Node}
    (hs : ∀ n ∈ s.sink, P n) (hns : ∀ n ∈ ns, P n) : ∀ n ∈ (ns.foldl push s).sink, P n := by
  induction ns generalizing s with
  | nil => exact hs
  | cons n ns ih =>
    have hn : P n := hns n (.head _)
    refine ih (fun m hm => ?_) fun m hm => hns m (.tail _ hm)
    cases n with
    | text pos t =>
      rcases mem_pushText hm with hm | rfl | ⟨p, before, stop, more, hbefore, rfl⟩
      · exact hs m hm
      · exact hn
      · exact htext _ _ _ _ (hs _ hbefore)
    | _ =>
      rcases List.mem_cons.mp hm with rfl | hm
      · exact hn
      · exact hs m hm

/-- A region stays grounded when grounded nodes are added to it. -/
theorem foldl_push_grounded {s : State} {ns : List Node} (hs : AllGrounded S s.sink.reverse)
    (hn : AllGrounded S ns) : AllGrounded S (ns.foldl push s).sink.reverse := by
  obtain ⟨hall, hfollow⟩ := allGrounded_iff.mp (hs.append hn)
  refine allGrounded_iff.mpr ⟨fun m hm => ?_, valuesFollow_trimmed (s.foldl_push_trimmed ns) hfollow⟩
  refine foldl_push_all (P := fun n => n.Grounded S ∧ ∀ l ∈ n.lists, AllGrounded S l) ?_ ?_ ?_ m
    (List.mem_reverse.mp hm)
  · rintro p t stop u ⟨h, -⟩
    have hp : p.isSome = true := h.pos
    exact ⟨⟨by simp [Node.pos, hp], trivial⟩, by simp [lists]⟩
  · exact fun n hn => hall n (List.mem_append_left _ (List.mem_reverse.mpr hn))
  · exact fun n hn => hall n (List.mem_append_right _ hn)

end State
end Atmark
