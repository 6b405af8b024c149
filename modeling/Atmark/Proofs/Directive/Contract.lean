import Atmark.Directive.Builtin
import Atmark.Proofs.Directive.Lockstep
import Atmark.Proofs.Parse.Loop

/-! The directives of the language keep every contract. One that declares something does nothing else, so
that what it declares can be read off the tokens after it (`Declares`); the others leave the declarations
alone, but for those that include a template, whose declarations are merged when it has been parsed. So the
standard registry obeys (`standard_obeys`). -/
namespace Atmark
open Node ParseM

/-! ## More about steps -/

namespace ParseM.Meets
variable {α : Type} {E : Error → Prop} {P : State → Prop} {Q : α → State → Prop}

/-- What holds for each of some things holds if there is one of them. -/
theorem exists_elim {ι : Type} {P : ι → State → Prop} {m : ParseM α} (h : ∀ i, Meets E (P i) m Q) :
    Meets E (fun s => ∃ i, P i s) m Q := by
  rintro s ⟨i, hs⟩
  exact h i s hs

/-- A result was returned from some state before. -/
theorem returned {m : ParseM α} (h : Meets E P m Q) :
    Meets E P m fun a t => (∃ s s', P s ∧ Returns m s a s') ∧ Q a t := by
  intro s hs
  have hm := h s hs
  cases hms : m s with
  | ok a t =>
    rw [hms] at hm
    exact ⟨⟨s, t, hs, hms⟩, hm⟩
  | error e t =>
    rw [hms] at hm
    exact hm

end ParseM.Meets

/-- What cannot be read is a fault at the position of its name, or names the files that were tried. -/
theorem Content.read_error {files : Option Files} {file name : Text} {pos : Option Position} {e : Error}
    (h : (read files file name pos).1 = .error e) :
    (∃ cause, e = .at? pos cause ∧ ∀ chain, cause ≠ .cycle chain) ∨
      ∃ tried fallback refusal, e = .content [] (pos.getD .zero) tried fallback refusal := by
  unfold read at h
  dsimp only at h
  repeat' split at h
  all_goals cases h
  all_goals first | exact .inl ⟨_, rfl, by simp⟩ | exact .inr ⟨_, _, _, rfl⟩

namespace Contract
open Directive
variable {C : Contract} {I : State → Prop} {ts us : List Token}

/-! ## Arguments and types -/

section Framed
variable (hI : Framed I)
include hI

theorem argument_meets {id : Ident} (hid : Token.Placed C.tokens id.pos) (expecting : String) :
    Meets C.error (C.At I ts) (argument id expecting) fun tok s =>
      (∃ us, ts = tok :: us) ∧ C.At I ts s := by
  refine at_intro fun hp => peek_meets ?_
  cases ts with
  | nil => exact .fail (expect_fault hid (by simp))
  | cons tok us =>
    refine .guard (fun _ => expect_fault (hp.placed (.head _)) (by simp)) fun _ => ?_
    exact (setLast_meets hI _).bind fun _ => .pure fun s hs => ⟨⟨us, rfl⟩, hs⟩

theorem stringArgument_meets {id : Ident} (hid : Token.Placed C.tokens id.pos) :
    Meets C.error (C.At I ts) (stringArgument id) fun v s =>
      stringAt? ts = some v ∧ C.From I ts s := by
  refine at_intro fun hp => ?_
  refine (argument_meets hI hid "string").bind fun tok => .given ?_
  rintro ⟨us, rfl⟩
  have htok : Token.Placed C.tokens tok.pos := hp.placed (.head _)
  split
  · rename_i l
    refine .guard (fun _ => expect_fault htok (by simp)) fun hl => ?_
    refine (skip_meets hI 1).bind fun _ => ?_
    split
    · rename_i v hv
      refine .pure fun s hs => ⟨?_, hs.from.mono (List.suffix_cons _ us)⟩
      simpa [stringAt?, hv] using hl
    · exact .fail (expect_fault htok (by simp))
  · exact unexpected_meets htok _

/-- What follows `<` can be read with `k` more steps in it. -/
def ReadsArguments (C : Contract) (I : State → Prop) (k : Nat)
    (arguments : Option Position → ParseM (List Token)) : Prop :=
  ∀ {pos : Option Position} (us : List Token), Token.Placed C.tokens pos → 2 * us.length + 2 ≤ k →
    Meets C.error (C.At I us) (arguments pos) fun _ => C.From I us

theorem typePath_meets {arguments : Option Position → ParseM (List Token)} {k : Nat}
    (ha : ReadsArguments C I k arguments) (ts : List Token) (hk : 2 * ts.length ≤ k) :
    Meets C.error (C.At I ts) (typePath arguments ts) fun _ => C.From I ts := by
  have hnone {ts : List Token} : Meets C.error (C.At I ts) (pure ([] : List Token)) fun _ => C.From I ts :=
    .pure fun s hs => hs.from
  fun_induction typePath arguments ts with
  | case1 => exact hnone
  | case2 => exact hnone
  | case3 tok ts _ ihPath ihDot =>
    have hsegment (pos : Option Position) (m : Ident) (j : Nat) {us : List Token}
        (hus : us = (tok :: ts).drop j) (ih : 2 * us.length ≤ k →
          Meets C.error (C.At I us) (typePath arguments us) fun _ => C.From I us) :
        Meets C.error (C.At I (tok :: ts)) (do
          skip j
          return .mark pos '.' :: .word m.pos m.name :: (← typePath arguments us))
          fun _ => C.From I (tok :: ts) := by
      have hsuffix : us <:+ tok :: ts := hus ▸ List.drop_suffix j _
      have hlength := hsuffix.length_le
      refine (skip_meets hI j).bind fun _ => ?_
      rw [← hus]
      exact (ih (by omega)).bind fun _ => .pure fun s hs => hs.mono hsuffix
    refine at_intro fun hp => ?_
    have htok : Token.Placed C.tokens tok.pos := hp.placed (.head _)
    refine (setLast_meets hI _).bind fun _ => ?_
    split
    · refine .guard (fun _ => expect_fault htok (by simp)) fun _ => ?_
      split
      · split
        · exact hsegment _ _ _ rfl ihPath
        · exact .fail (expect_fault htok (by simp))
      · exact .fail (expect_fault htok (by simp))
    split
    · split
      · split
        · exact hsegment _ _ _ rfl ihDot
        · exact hnone
      · exact hnone
    split
    · refine (skip_meets hI 1).bind fun _ => ?_
      simp only [List.length_cons] at hk
      refine (ha ts htok (by omega)).bind fun _ => .pure fun s hs => ?_
      exact hs.mono (List.suffix_cons tok ts)
    · exact hnone

theorem typeFrom_meets {arguments : Option Position → ParseM (List Token)} {k : Nat}
    (ha : ReadsArguments C I k arguments) (hne : C.tokens ≠ []) (ts : List Token)
    (hk : 2 * ts.length ≤ k) :
    Meets C.error (C.At I ts) (typeFrom arguments ts) fun _ => C.From I ts := by
  induction ts with
  | nil => exact .look fun x hx => .fail (expect_fault (hx.1.stop hne) (by simp))
  | cons tok ts ih =>
    have hsuffix : ts <:+ tok :: ts := List.suffix_cons tok ts
    simp only [List.length_cons] at hk
    refine at_intro fun hp => ?_
    have htok : Token.Placed C.tokens tok.pos := hp.placed (.head _)
    unfold typeFrom
    split
    · refine (skip_meets hI 1).bind fun _ => ?_
      split
      · exact (ih (by omega)).bind fun _ => .pure fun s hs => hs.mono hsuffix
      · exact .fail (expect_fault htok (by simp))
    · split
      · refine (skip_meets hI 1).bind fun _ => ?_
        refine (typePath_meets hI ha ts (by omega)).bind fun _ => .pure fun s hs => hs.mono hsuffix
      · exact unexpected_meets htok _

mutual

theorem typeWithin_meets (hne : C.tokens ≠ []) (k : Nat) (ts : List Token) (hk : 2 * ts.length < k) :
    Meets C.error (C.At I ts) (typeWithin k) fun _ => C.From I ts := by
  match k with
  | 0 => omega
  | k + 1 =>
    refine (checkStop_meets hI).bind fun _ => rest_meets ?_
    refine typeFrom_meets (k := k) hI ?_ hne ts (by omega)
    exact fun us hpos hus => typeArguments_meets hne k us hpos hus

theorem typeArguments_meets (hne : C.tokens ≠ []) (k : Nat) (ts : List Token) {pos : Option Position}
    (hpos : Token.Placed C.tokens pos) (hk : 2 * ts.length + 2 ≤ k) :
    Meets C.error (C.At I ts) (typeArguments k pos) fun _ => C.From I ts := by
  match k with
  | 0 => omega
  | k + 1 =>
    refine (typeWithin_meets hne k ts (by omega)).bind fun arg => ?_
    refine from_intro fun us hus hp => peek_meets ?_
    cases us with
    | nil => exact .fail (expect_fault hpos (by simp))
    | cons tok us =>
      have hlength := hus.length_le
      simp only [List.length_cons] at hlength
      have hsuffix : us <:+ ts := (List.suffix_cons tok us).trans hus
      refine (skip_meets hI 1).bind fun _ => ?_
      split
      · exact .pure fun s hs => hs.from.mono hsuffix
      split
      · refine (typeArguments_meets hne k us hpos (by omega)).bind fun _ => .pure fun s hs => ?_
        exact hs.mono hsuffix
      · exact unexpected_meets (hp.placed (.head _)) _

end

/-- The tokens left are enough steps for a type. -/
theorem typeName_meets (hne : C.tokens ≠ []) :
    Meets C.error (C.At I ts) typeName fun _ => C.From I ts :=
  rest_meets (typeWithin_meets hI hne _ ts (by omega))

end Framed

/-! ## Declarations -/

/-- Nothing has been declared, recorded or cached since a state. -/
def Pinned (x s : State) : Prop :=
  s.declared = x.declared ∧ s.world.log = x.world.log ∧ s.world.cache = x.world.cache

theorem Pinned.framed (x : State) : Framed (Pinned x) :=
  fun _ _ h hd hl hc => ⟨hd.trans h.1, hl.trans h.2.1, hc.trans h.2.2⟩

variable {id : Ident} {α : Type} {Q : α → State → Prop}

/-- A directive that declares nothing goes on from the state after its record. -/
theorem at_of_directed (hp : Token.Part C.tokens (.ident id :: ts)) (hd : Declares id ts none)
    {s : State} (h : C.Directed id ts s) : C.At C.inv ts s := by
  obtain ⟨s₀, hs₀, rfl⟩ := h
  refine ⟨⟨hs₀.1.path, hs₀.1.includers, hs₀.1.part, hs₀.1.stop, hs₀.1.sink, ?_⟩, hs₀.2⟩
  exact C.directive hp hd (by simp) hs₀.1.path hs₀.1.inv

/-- A directive that declares something starts with what was declared before. -/
theorem directed_intro {m : ParseM α} (h : ∀ s₀, C.At C.inv ts s₀ →
    Meets C.error (C.At (Pinned (s₀.directed id)) ts) m Q) : Meets C.error (C.Directed id ts) m Q := by
  rintro s ⟨s₀, hs₀, rfl⟩
  exact h s₀ hs₀ _ ⟨⟨hs₀.1.path, hs₀.1.includers, hs₀.1.part, hs₀.1.stop, hs₀.1.sink,
    rfl, rfl, rfl⟩, hs₀.2⟩

/-- A declaration, and the rest of its line, after what its directive has read. -/
theorem declare_meets {s₀ : State} (hs₀ : C.At C.inv ts s₀) {x : Declaration}
    (hp : Token.Part C.tokens (.ident id :: ts)) (hd : Declares id ts (some x))
    (hnew : x.IsNew s₀.declared) (hshared : x.isShared = false → C.includers = [])
    {f : Declarations → Declarations} (hf : f s₀.declared = x.addTo s₀.declared) (hus : us <:+ ts) :
    Meets C.error (C.At (Pinned (s₀.directed id)) us) (do
      declare f
      trimLine
      return Outcome.next) fun _ => C.From C.inv ts := by
  refine Meets.bind (Q := fun _ => C.At C.inv us) (.modify fun s hs => ?_) fun _ => ?_
  · have hinv := C.directive hp hd (by simpa using ⟨hnew, hshared⟩) hs₀.1.path hs₀.1.inv
    have hdeclared : f s.declared = x.addTo s₀.declared := by rw [hs.1.inv.1]; exact hf
    exact ⟨⟨hs.1.path, hs.1.includers, hs.1.part, hs.1.stop, hs.1.sink,
      C.framed _ _ hinv hdeclared hs.1.inv.2.1 hs.1.inv.2.2⟩, hs.2⟩
  · exact (trimLine_meets C.framed).bind fun _ => .pure fun s hs => hs.from.mono hus

theorem declarable_meets (hid : Token.Placed C.tokens id.pos) :
    Meets C.error (C.At I ts) (declarable id) fun _ s => C.includers = [] ∧ C.At I ts s := by
  refine .look fun x hx => ?_
  rw [hx.1.includers]
  split
  · exact .fail (expect_fault hid (by simp))
  · rename_i h
    exact .pure fun s hs => ⟨by simpa using h, hs⟩

section Declaring
variable (hp : Token.Part C.tokens (.ident id :: ts))
include hp

theorem model_meets (hid : id.name = utf8 "model") :
    Meets C.error (C.Directed id ts) (model id) fun _ => C.From C.inv ts := by
  have hpos : Token.Placed C.tokens id.pos := hp.placed (.head _)
  have hpart : Token.Part C.tokens ts := hp.tail
  cases hfollows : followsOnLine ts with
  | false =>
    refine Meets.pre (P := C.At C.inv ts) ?_ fun s => at_of_directed hp (.modelValue hid hfollows)
    refine peek_meets ?_
    unfold followsOnLine at hfollows
    rw [hfollows]
    exact .pure fun s hs => hs.from
  | true =>
    refine directed_intro fun s₀ hs₀ => ?_
    have hI := Pinned.framed (s₀.directed id)
    refine peek_meets ?_
    have hfollows' := hfollows
    unfold followsOnLine at hfollows'
    rw [hfollows']
    refine (declarable_meets hpos).bind fun _ => .given fun hroot => ?_
    refine .look fun x hx => ?_
    refine .guard (fun _ => expect_fault hpos (by simp)) fun hnone => ?_
    refine (argument_meets hI hpos _).bind fun tok => .given ?_
    rintro ⟨us, rfl⟩
    refine (typeName_meets hI (hpart.ne_nil (.head _))).returned.bind fun type => .given ?_
    rintro ⟨s, s', hs, hret⟩
    refine from_intro fun us hus _ => ?_
    refine declare_meets hs₀ hp (.model hid hfollows hs.2 hret) ?_ (fun _ => hroot) rfl hus
    have hmodel : x.declared.model = s₀.declared.model := by rw [hx.1.inv.1]; rfl
    rw [hmodel] at hnone
    simpa [Declaration.IsNew] using hnone

theorem viewName_meets (hid : id.name = utf8 "name") :
    Meets C.error (C.Directed id ts) (viewName id) fun _ => C.From C.inv ts := by
  have hpos : Token.Placed C.tokens id.pos := hp.placed (.head _)
  refine directed_intro fun s₀ hs₀ => ?_
  have hI := Pinned.framed (s₀.directed id)
  refine (declarable_meets hpos).bind fun _ => .given fun hroot => ?_
  refine .look fun x hx => ?_
  refine .guard (fun _ => expect_fault hpos (by simp)) fun hnone => ?_
  refine (stringArgument_meets hI hpos).bind fun value => .given fun hvalue => ?_
  refine from_intro fun us hus _ => ?_
  refine .guard (fun _ => expect_fault hpos (by simp)) fun _ => ?_
  refine declare_meets hs₀ hp (.name hid hvalue) ?_ (fun _ => hroot) rfl hus
  have hname : x.declared.namePos = s₀.declared.namePos := by rw [hx.1.inv.1]; rfl
  rw [hname] at hnone
  simpa [Declaration.IsNew] using hnone

theorem parameter_meets (hid : id.name = utf8 "viewstart" ∨ id.name = utf8 "lang") :
    Meets C.error (C.Directed id ts) (parameter id) fun _ => C.From C.inv ts := by
  have hpos : Token.Placed C.tokens id.pos := hp.placed (.head _)
  refine directed_intro fun s₀ hs₀ => ?_
  have hI := Pinned.framed (s₀.directed id)
  refine (declarable_meets hpos).bind fun _ => .given fun hroot => ?_
  refine .look fun x hx => ?_
  split
  · exact .fail (expect_fault hpos (by simp))
  · rename_i hnone
    refine (stringArgument_meets hI hpos).bind fun value => .given fun hvalue => ?_
    refine from_intro fun us hus _ => ?_
    refine declare_meets hs₀ hp (.parameter hid hvalue) ?_ (fun _ => hroot) rfl hus
    have hparameters : x.declared.parameters = s₀.declared.parameters := by rw [hx.1.inv.1]; rfl
    rw [hparameters] at hnone
    simpa [Declaration.IsNew] using hnone

omit hp in
theorem group_of_peekGroup {x : State} (hx : C.At I ts x) {d : Delimiter} {f : Frame}
    {block : List Token} (h : x.stream.peekGroup d = some (f, block)) :
    ∃ us, ts = .group f block :: us ∧ f.delim = d := by
  unfold Stream.peekGroup at h
  rw [hx.2] at h
  split at h
  · split at h
    · cases h
      exact ⟨_, rfl, ‹_›⟩
    · cases h
  · cases h

theorem codeSection_meets
    (hid : id.name = utf8 "functions" ∨ id.name = utf8 "struct" ∨ id.name = utf8 "impl") :
    Meets C.error (C.Directed id ts) (codeSection id) fun _ => C.From C.inv ts := by
  have hpos : Token.Placed C.tokens id.pos := hp.placed (.head _)
  refine directed_intro fun s₀ hs₀ => ?_
  have hI := Pinned.framed (s₀.directed id)
  refine (declarable_meets hpos).bind fun _ => .given fun hroot => ?_
  refine (argument_meets hI hpos _).bind fun tok => .given ?_
  rintro ⟨us, hus⟩
  have htok : Token.Placed C.tokens tok.pos := hp.placed (.tail _ (hus ▸ .head _))
  refine .look fun x hx => ?_
  split
  · exact unexpected_meets htok _
  · rename_i f block hgroup
    obtain ⟨us, rfl, hbrace⟩ := group_of_peekGroup hx hgroup
    refine (skip_meets hI 1).bind fun _ => ?_
    exact declare_meets hs₀ hp (.code hid rfl hbrace) trivial (fun _ => hroot) rfl
      (List.suffix_cons _ us)

/-- The name of an import is read before its path. -/
theorem importName_meets (hI : Framed I) :
    Meets C.error (C.At I ts) importName fun name s => ∃ us, (us <:+ ts ∧
      ∀ path, stringAt? us = some path → importAt? ts = some ⟨name, path⟩) ∧ C.At I us s := by
  refine peek_meets ?_
  cases ts with
  | nil => exact .pure fun s hs => ⟨[], ⟨List.suffix_rfl, by simp [stringAt?]⟩, hs⟩
  | cons tok us =>
    have hsuffix : us <:+ tok :: us := List.suffix_cons tok us
    cases tok with
    | ident t =>
      refine (skip_meets hI 1).bind fun _ => .pure fun s hs => ⟨us, ⟨hsuffix, ?_⟩, hs⟩
      intro path h
      simp [importAt?, h]
    | punct p =>
      dsimp only [List.head?_cons]
      split
      · rename_i hdot
        refine (skip_meets hI 1).bind fun _ => .pure fun s hs => ⟨us, ⟨hsuffix, ?_⟩, hs⟩
        intro path h
        simp [importAt?, hdot, h]
      · exact .pure fun s hs => ⟨_, ⟨List.suffix_rfl, by simp [stringAt?]⟩, hs⟩
    | literal l =>
      refine .pure fun s hs => ⟨_, ⟨List.suffix_rfl, ?_⟩, hs⟩
      intro path h
      simp [importAt?, h]
    | group f cs => exact .pure fun s hs => ⟨_, ⟨List.suffix_rfl, by simp [stringAt?]⟩, hs⟩

theorem use_meets (hid : id.name = utf8 "use") :
    Meets C.error (C.Directed id ts) (use id) fun _ => C.From C.inv ts := by
  have hpos : Token.Placed C.tokens id.pos := hp.placed (.head _)
  refine directed_intro fun s₀ hs₀ => ?_
  have hI := Pinned.framed (s₀.directed id)
  refine (argument_meets hI hpos _).bind fun _ => .given fun _ => ?_
  refine (importName_meets hp hI).bind fun name => .exists_elim fun us => .given ?_
  rintro ⟨hus, himport⟩
  refine at_intro fun hpart => peek_meets ?_
  cases us with
  | nil => exact .fail (expect_fault hpos (by simp))
  | cons tok us =>
    have htok : Token.Placed C.tokens tok.pos := hpart.placed (.head _)
    have hrest : us <:+ ts := (List.suffix_cons tok us).trans hus
    refine (skip_meets hI 1).bind fun _ => ?_
    split
    · rename_i l
      refine .guard (fun _ => expect_fault htok (by simp)) fun hstring => ?_
      split
      · exact .fail (expect_fault htok (by simp))
      · rename_i path hpath
        have hnew : Declares id ts (some (.use ⟨name, path⟩)) := by
          refine .use hid (himport path ?_)
          simpa [stringAt?] using ⟨by simpa using hstring, hpath⟩
        have hadd : Meets C.error (C.At (Pinned (s₀.directed id)) us) (do
            if (← peek).any fun t => t.isPunct ';' && !Text.breaksLine t.space then skip 1
            declare (·.addImport ⟨name, path⟩)
            trimLine
            return Outcome.next) fun _ => C.From C.inv ts := by
          refine peek_meets ?_
          split
          · refine (skip_meets hI 1).bind fun _ => ?_
            refine declare_meets hs₀ hp hnew trivial (by simp [Declaration.isShared]) rfl ?_
            exact (List.drop_suffix 1 us).trans hrest
          · exact declare_meets hs₀ hp hnew trivial (by simp [Declaration.isShared]) rfl hrest
        dsimp only
        split
        · refine Meets.bind (Q := fun _ _ => False) ?_ fun _ _ h => h.elim
          exact .fail (expect_fault htok (by simp))
        · exact hadd
    · exact unexpected_meets htok _

theorem inject_meets (hid : id.name = utf8 "inject") :
    Meets C.error (C.Directed id ts) (inject id) fun _ => C.From C.inv ts := by
  have hpos : Token.Placed C.tokens id.pos := hp.placed (.head _)
  refine directed_intro fun s₀ hs₀ => ?_
  have hI := Pinned.framed (s₀.directed id)
  refine (argument_meets hI hpos _).bind fun _ => .given fun _ => ?_
  refine rest_meets ?_
  refine (skip_meets hI _).bind fun _ => ?_
  refine .guard (fun _ => expect_fault hpos (by simp)) fun _ => ?_
  exact declare_meets hs₀ hp (.inject hid) trivial (by simp [Declaration.isShared]) rfl
    (List.drop_suffix _ ts)

end Declaring

/-! ## Loops and conditions -/

section Flow
variable {t : Tools} {n : Nat} (ht : C.Serves t n)

theorem rangeClause_postpone (v : Ident) (pos : Option Position) (first last : List Token)
    (inclusive : Bool) : Postpone C.later (rangeClause v pos first last inclusive) := by
  have hequals : Postpone C.later (if inclusive then [sign pos '=' ""] else []) := by
    split
    · exact .of_leaves (by simp [sign, postpones, lists])
    · exact .nil
  refine .append (.append (.append (.append (.append ?_ ?_) ?_) hequals) ?_) ?_
  · exact .of_leaves (by simp [keyword, sign, postpones, lists])
  · exact ofTokensFrom_postpone false _
  · exact .of_leaves (by simp [keyword, sign, postpones, lists])
  · exact ofTokensFrom_postpone false _
  · exact .of_leaves (by simp [keyword, sign, postpones, lists])

theorem iterationClause_postpone (vars : Ident × Option Ident) (word : Token) (expr : List Token) :
    Postpone C.later (iterationClause vars word expr) := by
  unfold iterationClause
  split
  rename_i first second hv
  have hw : ∀ n ∈ [first, second], n.postpones C.later ∧ n.lists = [] := by
    split at hv <;> cases hv <;> simp [keyword, postpones, lists]
  refine .append (.of_leaves ?_) (ofTokensFrom_postpone false _)
  simpa [keyword, sign, postpones, lists] using hw

theorem mem_of_splitAtFirst {p : Token → Bool} {ts before after : List Token} {u : Token}
    (h : splitAtFirst p ts = some (before, u, after)) : u ∈ ts ∧ before ⊆ ts ∧ after ⊆ ts := by
  induction ts generalizing before with
  | nil => cases h
  | cons t ts ih =>
    unfold splitAtFirst at h
    split at h
    · cases h
      exact ⟨.head _, by simp, List.subset_cons_self _ _⟩
    · obtain ⟨⟨b, v, a⟩, hsplit, heq⟩ := Option.map_eq_some_iff.mp h
      cases heq
      obtain ⟨hu, hbefore, hafter⟩ := ih hsplit
      exact ⟨.tail _ hu, List.cons_subset_cons t hbefore, List.subset_cons_of_subset t hafter⟩

theorem mem_of_splitAtRange {ts before after : List Token} {pos : Option Position}
    (h : splitAtRange ts = some (before, pos, after)) : ∃ u ∈ ts, u.pos = pos := by
  fun_induction splitAtRange ts generalizing before with
  | case1 t u ts =>
    cases h
    exact ⟨t, .head _, rfl⟩
  | case2 t u ts _ ih =>
    obtain ⟨⟨b, p, a⟩, hsplit, heq⟩ := Option.map_eq_some_iff.mp h
    cases heq
    obtain ⟨v, hv, hpos⟩ := ih hsplit
    exact ⟨v, .tail _ hv, hpos⟩
  | case3 => cases h

/-- The nodes of a clause keep the contract, or what is wrong with it does. -/
def KeepsClause (C : Contract) : Except Error (List Node) → Prop
  | .ok ns => Postpone C.later ns
  | .error e => C.error e

/-- What is wrong with a clause is placed where its header is. -/
theorem forClause_keeps {header : List Token} (hheader : ∀ u ∈ header, Token.Placed C.tokens u.pos) :
    C.KeepsClause (forClause header) := by
  unfold forClause
  cases hsplit : splitAtFirst (·.isNamed "in") header with
  | none => exact ofTokensFrom_postpone false header
  | some split =>
    obtain ⟨before, word, expr⟩ := split
    obtain ⟨hword, hbefore, hexpr⟩ := mem_of_splitAtFirst hsplit
    have hpattern (e : Error) (he : pattern before word.pos = .error e) : C.error e := by
      unfold pattern at he
      split at he
      · cases he
      · split at he
        · cases he
        · cases he
          exact expect_fault (hheader _ (hbefore (.head _))) (by simp)
      · cases he
        exact expect_fault (hheader _ (hbefore (.head _))) (by simp)
      · cases he
        exact expect_fault (hheader _ hword) (by simp)
    cases hvars : pattern before word.pos with
    | error e =>
      simp only [hvars, bind, Except.bind]
      exact hpattern e hvars
    | ok vars =>
      simp only [hvars, bind, Except.bind]
      unfold patternClause
      split
      · exact expect_fault (hheader _ hword) (by simp)
      · split
        · exact iterationClause_postpone _ _ _
        · rename_i first pos after hrange
          obtain ⟨u, hu, rfl⟩ := mem_of_splitAtRange hrange
          have hu := hheader u (hexpr hu)
          dsimp only
          generalize (if (after.head?.any fun t => t.isPunct '=' && t.glued) = true then after.tail
            else after) = last
          split
          · exact expect_fault hu (by simp)
          · split
            · exact rangeClause_postpone _ _ _ _ _
            · exact expect_fault hu (by simp)

include ht

theorem block_meets {f : Frame} {cs : List Token} (hcs : C.Inner n f cs) :
    Meets C.error (C.At C.inv ts) (block t f cs) fun node s =>
      Postpone C.later [node] ∧ C.At C.inv ts s :=
  (region_meets ht hcs false).bind fun ns => .given fun hns => .pure fun s hs =>
    ⟨.single trivial (by simpa [lists] using hns), hs⟩

theorem forLoop_meets {id : Ident} (hid : Token.Placed C.tokens id.pos) (hw : Token.weights ts ≤ n) :
    Meets C.error (C.At C.inv ts) (forLoop t id) fun _ => C.From C.inv ts := by
  refine at_intro fun hp => rest_meets ?_
  refine (untilBrace_meets C.framed hid "for" ts).bind fun ⟨header, f, cs⟩ => .given ?_
  rintro ⟨hheader, hgroup⟩
  refine from_intro fun us hus _ => ?_
  have hclause := forClause_keeps (C := C) fun u hu => hp.placed (hheader u hu)
  dsimp only
  cases hc : forClause header with
  | error e =>
    rw [hc] at hclause
    exact .throw hclause
  | ok clause =>
    rw [hc] at hclause
    refine (block_meets ht (inner_of_mem hp hw hgroup)).bind fun body => .given fun hbody => ?_
    refine (emit_meets C.framed (.of_leaves (by simp [keyword, postpones, lists]))).bind fun _ => ?_
    refine (emit_meets C.framed hclause).bind fun _ => ?_
    exact (emit_meets C.framed hbody).bind fun _ => .pure fun s hs => hs.from.mono hus

theorem whileLoop_meets {id : Ident} (hid : Token.Placed C.tokens id.pos) (hw : Token.weights ts ≤ n) :
    Meets C.error (C.At C.inv ts) (whileLoop t id) fun _ => C.From C.inv ts := by
  refine at_intro fun hp => rest_meets ?_
  refine (untilBrace_meets C.framed hid "while" ts).bind fun ⟨header, f, cs⟩ => .given ?_
  rintro ⟨-, hgroup⟩
  refine from_intro fun us hus _ => ?_
  refine .guard (fun _ => expect_fault hid (by simp)) fun _ => ?_
  refine (block_meets ht (inner_of_mem hp hw hgroup)).bind fun body => .given fun hbody => ?_
  refine (emit_meets C.framed (.of_leaves (by simp [keyword, postpones, lists]))).bind fun _ => ?_
  refine (emit_meets C.framed (ofTokensFrom_postpone false _)).bind fun _ => ?_
  exact (emit_meets C.framed hbody).bind fun _ => .pure fun s hs => hs.from.mono hus

theorem branch_meets {id : Ident} (hid : Token.Placed C.tokens id.pos) (hw : Token.weights ts ≤ n) :
    Meets C.error (C.At C.inv ts) (branch t id) fun _ => C.From C.inv ts := by
  refine at_intro fun hp => rest_meets ?_
  refine (untilBrace_meets C.framed hid "if" ts).bind fun ⟨header, f, cs⟩ => .given ?_
  rintro ⟨-, hgroup⟩
  refine from_intro fun us hus _ => ?_
  refine .guard (fun _ => expect_fault hid (by simp)) fun _ => ?_
  refine (block_meets ht (inner_of_mem hp hw hgroup)).bind fun body => .given fun hbody => ?_
  refine (emit_meets C.framed (ofTokensFrom_postpone false _)).bind fun _ => ?_
  exact (emit_meets C.framed hbody).post fun _ _ hs => hs.from.mono hus

omit ht in
theorem elseAhead_count {ts : List Token} {word next : Token} {count : Nat}
    (h : elseAhead ts = some (word, next, count)) : 0 < count ∧ ts ≠ [] := by
  unfold elseAhead at h
  repeat' split at h
  all_goals cases h
  all_goals simp

/-- Every branch takes a token, so as many steps as tokens are enough. -/
theorem elseBranches_meets (k : Nat) (hk : ts.length < k) (hw : Token.weights ts ≤ n) :
    Meets C.error (C.At C.inv ts) (elseBranches t k) fun _ => C.From C.inv ts := by
  induction k generalizing ts with
  | zero => omega
  | succ k ih =>
    have hdone : Meets C.error (C.At C.inv ts) (pure ()) fun _ => C.From C.inv ts :=
      .pure fun s hs => hs.from
    refine at_intro fun hp => rest_meets ?_
    split
    · exact hdone
    · rename_i word next count hahead
      have hnext : next ∈ ts := Pairing.mem_of_elseAhead hahead
      obtain ⟨hcount, hne⟩ := elseAhead_count hahead
      have hsuffix : ts.drop count <:+ ts := List.drop_suffix _ _
      have hlight : Token.weights (ts.drop count) ≤ n := (Token.weights_suffix hsuffix).trans hw
      split
      · rename_i i
        split
        · refine (skip_meets C.framed _).bind fun _ => ?_
          refine (emit_meets C.framed (.of_leaves (by simp [keyword, postpones, lists]))).bind fun _ => ?_
          refine (branch_meets ht (hp.placed hnext) hlight).bind fun _ => ?_
          refine from_intro fun us hus _ => ?_
          have hlength : us.length < k := by
            have hshort := hus.length_le
            have hpos := List.length_pos_of_ne_nil hne
            rw [List.length_drop] at hshort
            omega
          refine (ih hlength ((Token.weights_suffix hus).trans hlight)).post fun _ _ hs => ?_
          exact hs.mono (hus.trans hsuffix)
        · exact hdone
      · rename_i f cs
        split
        · refine (skip_meets C.framed _).bind fun _ => ?_
          refine (block_meets ht (inner_of_mem hp hw hnext)).bind fun body => .given fun hbody => ?_
          refine (emit_meets C.framed ?_).post fun _ _ hs => hs.from.mono hsuffix
          exact .cons trivial (by simp [keyword, lists]) hbody
        · exact hdone
      · exact hdone

theorem condition_meets {id : Ident} (hid : Token.Placed C.tokens id.pos) (hw : Token.weights ts ≤ n) :
    Meets C.error (C.At C.inv ts) (condition t id) fun _ => C.From C.inv ts := by
  refine (emit_meets C.framed (.of_leaves (by simp [keyword, postpones, lists]))).bind fun _ => ?_
  refine (branch_meets ht hid hw).bind fun _ => ?_
  refine from_intro fun us hus _ => rest_meets ?_
  refine (elseBranches_meets ht _ (Nat.lt_succ_self _) ((Token.weights_suffix hus).trans hw)).bind
    fun _ => .pure fun s hs => hs.mono hus

end Flow

/-! ## Sections -/

section Sections
variable {t : Tools} {n : Nat} (ht : C.Serves t n)

theorem contextCall_postpone (id : Ident) (method : String) (f : Frame) {args : List Node}
    (h : Postpone C.later args) : Postpone C.later [contextCall id method f args] := by
  refine .single trivial ?_
  simp only [contextCall, lists, List.mem_singleton, forall_eq]
  refine .cons trivial (by simp [keyword, lists]) (.cons trivial (by simp [sign, lists]) ?_)
  refine .cons trivial (by simp [keyword, lists]) (.single trivial ?_)
  simpa [lists] using h

theorem callArguments_meets :
    Meets C.error (C.At C.inv ts) callArguments? fun r s =>
      (∀ f cs, r = some (f, cs) → ∃ us, ts = .group f cs :: us) ∧ C.At C.inv ts s := by
  refine .look fun x hx => .pure fun s hs => ⟨?_, hs⟩
  intro f cs h
  obtain ⟨hgroup, -⟩ := Option.filter_eq_some_iff.mp h
  obtain ⟨us, hus, -⟩ := group_of_peekGroup hx hgroup
  exact ⟨us, hus⟩

theorem renderBody_meets (id : Ident) :
    Meets C.error (C.At C.inv ts) (renderBody id) fun _ => C.From C.inv ts := by
  have hcall (f : Frame) {us : List Token} (hus : us <:+ ts) :
      Meets C.error (C.At C.inv us) (do
        emit [contextCall id "RenderBody" f []]
        return Outcome.next) fun _ => C.From C.inv ts :=
    (emit_meets C.framed (contextCall_postpone _ _ _ .nil)).bind fun _ =>
      .pure fun s hs => hs.from.mono hus
  refine at_intro fun hp => ?_
  refine callArguments_meets.bind fun args => .given fun hargs => ?_
  split
  · rename_i f cs
    obtain ⟨us, rfl⟩ := hargs f cs rfl
    refine (skip_meets C.framed 1).bind fun _ => ?_
    exact .guard (fun _ => expect_fault (hp.placed (.head _)) (by simp))
      fun _ => hcall _ (List.suffix_cons _ us)
  · exact hcall _ List.suffix_rfl

include ht

theorem renderSection_meets {id : Ident} (hid : Token.Placed C.tokens id.pos)
    (hw : Token.weights ts ≤ n) :
    Meets C.error (C.At C.inv ts) (renderSection t id) fun _ => C.From C.inv ts := by
  refine at_intro fun hp => ?_
  refine callArguments_meets.bind fun args => .given fun hargs => ?_
  split
  · exact .fail (expect_fault hid (by simp))
  · rename_i f cs
    obtain ⟨us, rfl⟩ := hargs f cs rfl
    refine (skip_meets C.framed 1).bind fun _ => ?_
    refine (region_meets ht (inner_of_mem hp hw (.head _)) false).bind fun args =>
      .given fun hnodes => ?_
    refine .guard (fun _ => expect_fault (hp.placed (.head _)) (by simp)) fun _ => ?_
    refine (emit_meets C.framed (contextCall_postpone _ _ _ hnodes)).bind fun _ => ?_
    exact .pure fun s hs => hs.from.mono (List.suffix_cons _ us)

theorem defineSection_meets {id : Ident} (hid : Token.Placed C.tokens id.pos)
    (hw : Token.weights ts ≤ n) :
    Meets C.error (C.At C.inv ts) (defineSection t id) fun _ => C.From C.inv ts := by
  refine at_intro fun hp => ?_
  refine (argument_meets C.framed hid _).bind fun tok => .given ?_
  rintro ⟨us, rfl⟩
  have htok : Token.Placed C.tokens tok.pos := hp.placed (.head _)
  split
  · exact unexpected_meets htok _
  · rename_i name _
    refine (skip_meets C.framed 1).bind fun _ => ?_
    refine .look fun x hx => ?_
    split
    · exact .fail (expect_fault htok (by simp))
    · rename_i f cs hgroup
      obtain ⟨vs, hvs, -⟩ := group_of_peekGroup hx hgroup
      have hmem : .group f cs ∈ tok :: us := List.mem_of_mem_drop (i := 1) (hvs ▸ .head _)
      refine (skip_meets C.framed 1).bind fun _ => ?_
      refine (region_meets ht (inner_of_mem hp hw hmem) true).bind fun nodes => .given fun hnodes => ?_
      have hnode : Postpone C.later [.define id.pos name nodes] :=
        .single trivial (by simpa [lists] using hnodes)
      refine (emit_meets C.framed hnode).bind fun _ => ?_
      refine (trimLine_meets C.framed).bind fun _ => .pure fun s hs => hs.from.mono ?_
      rw [List.drop_drop]
      exact List.drop_suffix _ _

end Sections

/-! ## Contents of other files -/

section Contents
variable {t : Tools} {n : Nat} (ht : C.Serves t n)

/-- The path that is read is written after the directive. -/
theorem pathArgument_meets {id : Ident} (hid : Token.Placed C.tokens id.pos) :
    Meets C.error (C.At C.inv ts) (pathArgument id) fun r s =>
      (Token.Placed C.tokens r.2 ∧ pathAfter? ts = some r.1) ∧ C.From C.inv ts s := by
  refine at_intro fun hp => ?_
  refine (argument_meets C.framed hid "path").bind fun tok => .given ?_
  rintro ⟨us, rfl⟩
  have htok : Token.Placed C.tokens tok.pos := hp.placed (.head _)
  have hbare (h : ∀ name, some (Token.sourceOf (pathTokens true (tok :: us))) = some name →
      pathAfter? (tok :: us) = some name) :
      Meets C.error (C.At C.inv (tok :: us)) (do
        let ts := pathTokens true (← rest)
        if ts.isEmpty then unexpected tok (.afterDirective id.name (utf8 "path"))
        skip ts.length
        return (Token.sourceOf ts, tok.pos)) fun r s =>
          (Token.Placed C.tokens r.2 ∧ pathAfter? (tok :: us) = some r.1) ∧
            C.From C.inv (tok :: us) s := by
    refine rest_meets (.guard (fun _ => expect_fault htok (by simp)) fun _ => ?_)
    refine (skip_meets C.framed _).bind fun _ => .pure fun s hs => ?_
    exact ⟨⟨htok, h _ rfl⟩, hs.from.mono (List.drop_suffix _ _)⟩
  cases tok with
  | literal l =>
    cases hl : l.isString with
    | true =>
      simp only [hl, if_true]
      refine (skip_meets C.framed 1).bind fun _ => ?_
      cases hvalue : l.value? with
      | none => exact .fail (expect_fault htok (by simp))
      | some name =>
        refine .pure fun s hs => ⟨⟨htok, ?_⟩, hs.from.mono (List.suffix_cons _ us)⟩
        simp [pathAfter?, hl, hvalue]
    | false =>
      simp only [hl, Bool.false_eq_true, if_false]
      exact hbare fun name h => by simpa [pathAfter?, hl] using h
  | ident | punct | group => exact hbare fun name h => h

theorem read_keeps {files : Option Files} {file name : Text} {pos : Option Position} {e : Error}
    (hpos : Token.Placed C.tokens pos) (h : (Content.read files file name pos).1 = .error e) :
    C.error e := by
  obtain ⟨cause, rfl, hcause⟩ | ⟨_, _, _, rfl⟩ := Content.read_error h
  · exact C.fault hpos cause hcause
  · exact C.unread _ _ _ _

theorem checkName_meets (name : Text) {pos : Option Position} (hpos : Token.Placed C.tokens pos) :
    Meets C.error (C.At C.inv ts) (checkName name pos) fun _ => C.At C.inv ts := by
  unfold checkName
  refine .guard (fun _ => expect_fault hpos (by simp)) fun _ => ?_
  refine .look fun x _ => ?_
  split
  · exact .fail (expect_fault hpos (by simp))
  · exact .pure fun s hs => hs

theorem laterContent_meets {name : Text} {pos : Option Position} (hpos : Token.Placed C.tokens pos)
    (hnames : Directive.Names laterNames C.tokens name) (markdown : Bool) :
    Meets C.error (C.At C.inv ts) (laterContent name pos markdown) fun _ => C.From C.inv ts := by
  refine (checkName_meets name hpos).bind fun _ => .look fun x hx => ?_
  rw [hx.1.path]
  have hnode : Postpone C.later [.external pos name C.path markdown] :=
    .single (C.postponed hpos hnames markdown) (by simp [lists])
  exact (emit_meets C.framed hnode).bind fun _ => .pure fun s hs => hs.from

include ht

theorem readContent_meets (name : Text) {pos : Option Position} (hpos : Token.Placed C.tokens pos) :
    Meets C.error (C.At C.inv ts) (readContent t name pos) fun r s =>
      C.settings.Leads C.path name r.2 r.1 ∧ C.At C.inv ts s := by
  refine .look fun x hx => ?_
  rw [hx.1.path, ht.settings]
  rcases hread : Content.read C.settings.files C.path name pos with ⟨result, tried⟩
  cases result with
  | ok found =>
    have hfound : Meets C.error (C.At C.inv ts) (pure found) fun r s =>
        C.settings.Leads C.path name r.2 r.1 ∧ C.At C.inv ts s :=
      .pure fun s hs => ⟨(Settings.leads_iff pos).mpr (by rw [hread]), hs⟩
    cases tried with
    | none => exact hfound
    | some attempt => exact (note_meets (by decide) _).bind fun _ => hfound
  | error e =>
    have hthrow : Meets C.error (C.At C.inv ts) (throw e : ParseM (Text × Text)) fun r s =>
        C.settings.Leads C.path name r.2 r.1 ∧ C.At C.inv ts s :=
      .throw (read_keeps hpos (by rw [hread]))
    cases tried with
    | none => exact hthrow
    | some attempt => exact (note_meets (by decide) _).bind fun _ => hthrow

omit ht in
theorem markdownText_meets (src : Text) {pos : Option Position} (hpos : Token.Placed C.tokens pos) :
    Meets C.error (C.At C.inv ts) (markdownText t src pos) fun _ => C.At C.inv ts := by
  unfold markdownText Content.renderMarkdown
  cases t.settings.markdown src with
  | ok html => exact .pure fun s hs => hs
  | error reason => exact .throw (expect_fault hpos (by simp))

omit ht in
theorem cacheKey_meets (kind : ContentKind) (name : Text) :
    Meets C.error (C.At C.inv ts) (cacheKey? kind name) fun r s =>
      C.At C.inv ts s ∧ ∀ c key, r = some (c, key) → s.world.cache = some c := by
  refine .get fun x hx => ?_
  split
  · refine .pure ?_
    rintro _ rfl
    exact ⟨hx, by simp⟩
  · rename_i c hc
    split
    · refine .pure ?_
      rintro _ rfl
      exact ⟨hx, by simp⟩
    · refine .pure ?_
      rintro _ rfl
      refine ⟨hx, fun c' key h => ?_⟩
      obtain ⟨_, -, heq⟩ := Option.map_eq_some_iff.mp h
      cases heq
      exact hc

omit ht in
/-- A content that is found in the cache, or read and kept there, if both are as `J` says. -/
theorem cachedContent_meets {J : Fragment → State → Prop} {kind : ContentKind} {name : Text}
    {pos : Option Position} {convert : Text → Text → ParseM Fragment}
    (hfresh : Meets C.error (C.At C.inv ts) (freshContent t name pos convert) fun f s =>
      Postpone C.later f.nodes ∧ C.At (J f) ts s)
    (hhit : ∀ {s : State} {c : Cache} {key : Text} {f : Fragment}, C.inv s → s.world.cache = some c →
      c.get? key = some f → Postpone C.later f.nodes ∧ J f s)
    (hput : ∀ {s : State} (key : Text) {f : Fragment}, Postpone C.later f.nodes → J f s →
      J f (s.cached key f)) :
    Meets C.error (C.At C.inv ts) (cachedContent t kind name pos convert) fun f s =>
      Postpone C.later f.nodes ∧ C.At (J f) ts s := by
  refine (cacheKey_meets kind name).bind fun found => ?_
  cases found with
  | none => exact hfresh.pre fun s hs => hs.1
  | some p =>
    obtain ⟨c, key⟩ := p
    dsimp only
    split
    · rename_i f hget
      refine Meets.bind (Q := fun _ s => C.At C.inv ts s ∧ s.world.cache = some c)
        (.modify fun _ hs => ⟨?_, hs.2 c key rfl⟩) fun _ => .pure fun s hs => ?_
      · exact ⟨⟨hs.1.1.path, hs.1.1.includers, hs.1.1.part, hs.1.1.stop, hs.1.1.sink,
          C.note _ (by decide) hs.1.1.inv⟩, hs.1.2⟩
      · obtain ⟨hnodes, hJ⟩ := hhit hs.1.1.inv hs.2 hget
        exact ⟨hnodes, ⟨hs.1.1.path, hs.1.1.includers, hs.1.1.part, hs.1.1.stop, hs.1.1.sink, hJ⟩,
          hs.1.2⟩
    · refine ((note_meets (by decide) _).pre fun s hs => hs.1).bind fun _ => ?_
      refine hfresh.bind fun f => .given fun hf => ?_
      refine Meets.bind (Q := fun _ => C.At (J f) ts) (.modify fun _ hs => ?_) fun _ =>
        .pure fun s hs => ⟨hf, hs⟩
      exact ⟨⟨hs.1.path, hs.1.includers, hs.1.part, hs.1.stop, hs.1.sink, hput key hf hs.1.inv⟩, hs.2⟩

omit ht in
/-- The nodes of a content that declares nothing are written where it is included. -/
theorem written_meets {m : ParseM Fragment} (hm : Meets C.error (C.At C.inv us) m fun f s =>
    Postpone C.later f.nodes ∧ C.At C.inv us s) (hus : us <:+ ts) :
    Meets C.error (C.At C.inv us) (do
      let fragment ← m
      emit fragment.nodes
      return Outcome.next) fun _ => C.From C.inv ts :=
  hm.bind fun _ => .given fun hf => (emit_meets C.framed hf).bind fun _ =>
    .pure fun s hs => hs.from.mono hus

theorem htmlFile_meets (cached : Bool) {id : Ident} (hid : cached = false → id.name ∈ laterNames)
    (hp : Token.Part C.tokens (.ident id :: ts)) :
    Meets C.error (C.At C.inv ts) (htmlFile cached t id) fun _ => C.From C.inv ts := by
  refine (pathArgument_meets (hp.placed (.head _))).bind fun ⟨name, pos⟩ => .given ?_
  rintro ⟨hpos, hpath⟩
  refine from_intro fun us hus _ => ?_
  cases cached with
  | false =>
    exact (laterContent_meets hpos ⟨id, ts, hp, hid rfl, hpath⟩ false).post fun _ _ hs => hs.mono hus
  | true =>
    refine written_meets ?_ hus
    refine cachedContent_meets ?_ (fun hinv hc hget => ⟨(C.hit hinv hc hget).1, hinv⟩)
      fun key _ hf hinv => C.put key hf hinv
    refine (readContent_meets ht name hpos).bind fun found => .given fun _ => ?_
    exact .pure fun s hs => ⟨.single trivial (by simp [lists]), hs⟩

theorem markdownFile_meets (cached : Bool) {id : Ident} (hid : cached = false → id.name ∈ laterNames)
    (hp : Token.Part C.tokens (.ident id :: ts)) :
    Meets C.error (C.At C.inv ts) (markdownFile cached t id) fun _ => C.From C.inv ts := by
  refine (pathArgument_meets (hp.placed (.head _))).bind fun ⟨name, pos⟩ => .given ?_
  rintro ⟨hpos, hpath⟩
  refine from_intro fun us hus _ => ?_
  cases cached with
  | false =>
    exact (laterContent_meets hpos ⟨id, ts, hp, hid rfl, hpath⟩ true).post fun _ _ hs => hs.mono hus
  | true =>
    refine written_meets ?_ hus
    refine cachedContent_meets ?_ (fun hinv hc hget => ⟨(C.hit hinv hc hget).1, hinv⟩)
      fun key _ hf hinv => C.put key hf hinv
    refine (readContent_meets ht name hpos).bind fun found => .given fun _ => ?_
    refine (markdownText_meets _ hpos).bind fun _ => ?_
    exact .pure fun s hs => ⟨.single trivial (by simp [lists]), hs⟩

omit ht in
theorem markdown_meets {id : Ident} (hid : Token.Placed C.tokens id.pos) :
    Meets C.error (C.At C.inv ts) (markdown t id) fun _ => C.From C.inv ts := by
  have hsource : Meets C.error (C.At C.inv ts) (markdownSource id) fun r s =>
      Token.Placed C.tokens r.2 ∧ C.At C.inv ts s := by
    refine at_intro fun hp => ?_
    refine (argument_meets C.framed hid _).bind fun tok => .given ?_
    rintro ⟨us, rfl⟩
    have htok : Token.Placed C.tokens tok.pos := hp.placed (.head _)
    cases tok with
    | literal l =>
      dsimp only
      split
      · exact unexpected_meets htok _
      · split
        · exact .pure fun s hs => ⟨htok, hs⟩
        · exact .fail (expect_fault htok (by simp))
    | group f cs =>
      dsimp only
      split
      · exact .pure fun s hs => ⟨htok, hs⟩
      · exact unexpected_meets htok _
    | _ => exact unexpected_meets htok _
  refine hsource.bind fun ⟨src, pos⟩ => .given fun hpos => ?_
  refine (skip_meets C.framed 1).bind fun _ => ?_
  refine (markdownText_meets src hpos).bind fun html => ?_
  refine (emitText_meets C.framed _ _).bind fun _ => .pure fun s hs => ?_
  exact hs.from.mono (List.drop_suffix 1 ts)

theorem templateFile_meets (cached : Bool) {id : Ident} (hid : id.name ∈ templateNames)
    (hp : Token.Part C.tokens (.ident id :: ts)) :
    Meets C.error (C.At C.inv ts) (templateFile cached t id) fun _ => C.From C.inv ts := by
  refine (pathArgument_meets (hp.placed (.head _))).bind fun ⟨name, pos⟩ => .given ?_
  rintro ⟨hpos, hpath⟩
  refine from_intro fun us hus _ => ?_
  have hfresh : Meets C.error (C.At C.inv us) (freshContent t name pos (embedTemplate t pos))
      fun f s => Postpone C.later f.nodes ∧ C.At (C.pending f) us s := by
    refine (readContent_meets ht name hpos).bind fun ⟨data, file⟩ => .given fun hleads => ?_
    exact ht.embed hpos ⟨id, ts, hp, hid, hpath⟩ hleads us
  have hwrite {m : ParseM Fragment} (hm : Meets C.error (C.At C.inv us) m fun f s =>
      Postpone C.later f.nodes ∧ C.At (C.pending f) us s) :
      Meets C.error (C.At C.inv us) (do
        let fragment ← m
        declare (·.merge fragment)
        emit fragment.nodes
        return Outcome.next) fun _ => C.From C.inv ts := by
    refine hm.bind fun f => .given fun hf => ?_
    refine Meets.bind (Q := fun _ => C.At C.inv us) (.modify fun _ hs => ?_) fun _ => ?_
    · exact ⟨⟨hs.1.path, hs.1.includers, hs.1.part, hs.1.stop, hs.1.sink, C.merge hs.1.inv⟩, hs.2⟩
    · exact (emit_meets C.framed hf).bind fun _ => .pure fun s hs => hs.from.mono hus
  cases cached with
  | false => exact hwrite hfresh
  | true => exact hwrite (cachedContent_meets hfresh C.hit C.pendingPut)

end Contents

/-! ## The standard registry -/

theorem listed_keeps {c : ElementContext} (hc : C.Shows c) {attr : String} {e : Error}
    (h : Environment.listed? c attr = .error e) : C.error (e.withPosition c.pos) := by
  unfold Environment.listed? ElementContext.attribute? at h
  split at h
  · cases h
  · cases h
    exact expect_fault hc.placed (by simp)
  · rename_i v hfind
    split at h
    · cases h
      exact expect_fault (hc.values _ (List.mem_of_find?_eq_some hfind) v rfl) (by simp)
    · cases h

theorem environment_error {c : ElementContext} (hc : C.Shows c) {e : Error}
    (h : Environment.run c = .error e) : C.error (e.withPosition c.pos) := by
  unfold Environment.run at h
  cases hi : Environment.listed? c "include" with
  | error e' =>
    rw [hi] at h
    cases h
    exact listed_keeps hc hi
  | ok includes =>
    cases he : Environment.listed? c "exclude" with
    | error e' =>
      rw [hi, he] at h
      cases h
      exact listed_keeps hc he
    | ok excludes =>
      rw [hi, he] at h
      simp only [bind, Except.bind] at h
      split at h
      · cases h
        exact expect_fault hc.placed (by simp)
      · cases h

theorem environment_nodes {c : ElementContext} (hc : C.Shows c) {ns : List Node}
    (h : Environment.run c = .ok (some ns)) : Postpone C.later ns := by
  unfold Environment.run at h
  cases hi : Environment.listed? c "include" with
  | error e' => rw [hi] at h; cases h
  | ok includes =>
    cases he : Environment.listed? c "exclude" with
    | error e' => rw [hi, he] at h; cases h
    | ok excludes =>
      rw [hi, he] at h
      simp only [bind, Except.bind] at h
      split at h
      · cases h
      · cases h
        split
        · exact hc.children
        · exact .nil

/-- Every directive of the language keeps the contract. -/
theorem builtin_meets {d : Directive} (hd : d ∈ builtinDirectives) {t : Tools} {n : Nat}
    (ht : C.Serves t n) {id : Ident} (hid : id.name = d.name)
    (hp : Token.Part C.tokens (.ident id :: ts)) (hw : Token.weights ts ≤ n) :
    Meets C.error (C.Directed id ts) (d.run t id) fun _ => C.From C.inv ts := by
  have hpos : Token.Placed C.tokens id.pos := hp.placed (.head _)
  -- a directive that declares nothing
  have hplain {m : ParseM Outcome} (hm : Meets C.error (C.At C.inv ts) m fun _ => C.From C.inv ts)
      (hname : id.name ≠ utf8 "use" ∧ id.name ≠ utf8 "inject" ∧ id.name ∉ viewNames) :
      Meets C.error (C.Directed id ts) m fun _ => C.From C.inv ts :=
    hm.pre fun s => at_of_directed hp (.nothing hname.1 hname.2.1 hname.2.2)
  simp only [builtinDirectives, List.mem_cons, List.not_mem_nil, or_false] at hd
  rcases hd with rfl | rfl | rfl | rfl | rfl | rfl | rfl | rfl | rfl | rfl | rfl | rfl | rfl | rfl |
    rfl | rfl | rfl | rfl | rfl | rfl | rfl | rfl | rfl
  · exact model_meets hp hid
  · exact viewName_meets hp hid
  · exact parameter_meets hp (.inl hid)
  · exact parameter_meets hp (.inr hid)
  · exact use_meets hp hid
  · exact inject_meets hp hid
  · exact codeSection_meets hp (.inl hid)
  · exact codeSection_meets hp (.inr (.inl hid))
  · exact codeSection_meets hp (.inr (.inr hid))
  · exact hplain (forLoop_meets ht hpos hw) (hid ▸ by decide)
  · exact hplain (whileLoop_meets ht hpos hw) (hid ▸ by decide)
  · exact hplain (condition_meets ht hpos hw) (hid ▸ by decide)
  · exact hplain (.fail (expect_fault hpos (by simp))) (hid ▸ by decide)
  · exact hplain (defineSection_meets ht hpos hw) (hid ▸ by decide)
  · exact hplain (renderSection_meets ht hpos hw) (hid ▸ by decide)
  · exact hplain (renderBody_meets id) (hid ▸ by decide)
  · exact hplain (htmlFile_meets ht true (fun h => by cases h) hp) (hid ▸ by decide)
  · exact hplain (htmlFile_meets ht false (fun _ => hid ▸ by decide) hp) (hid ▸ by decide)
  · exact hplain (templateFile_meets ht true (hid ▸ by decide) hp) (hid ▸ by decide)
  · exact hplain (templateFile_meets ht false (hid ▸ by decide) hp) (hid ▸ by decide)
  · exact hplain (markdown_meets hpos) (hid ▸ by decide)
  · exact hplain (markdownFile_meets ht true (fun h => by cases h) hp) (hid ▸ by decide)
  · exact hplain (markdownFile_meets ht false (fun _ => hid ▸ by decide) hp) (hid ▸ by decide)

/-- The standard registry keeps every contract. -/
theorem standard_obeys (C : Contract) : C.Obeys Registry.standard where
  tagHooks := rfl
  elementError := by
    intro h hh c e hc he
    rw [List.mem_singleton.mp hh] at he
    exact environment_error hc he
  elementNodes := by
    intro h hh c ns hc hn
    rw [List.mem_singleton.mp hh] at hn
    exact environment_nodes hc hn
  directives := by
    intro d hd t n ht id ts
    exact builtin_meets hd ht

end Contract
end Atmark
