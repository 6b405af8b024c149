import Atmark.Directive.Builtin
import Atmark.Proofs.Cache.Meaning
import Atmark.Proofs.Code.Unplaced
import Atmark.Proofs.Directive.Model
import Atmark.Proofs.Parse.Onward

/-! The directives of the language over the seam of two sources. What they read they read up to a token that is
parted from it or to a closing delimiter, so the second run reads the same; `else` alone is looked for after white
space. So the standard registry does the same somewhere else (`Registry.standard_moves`). -/
namespace Atmark
open Node ParseM

namespace Declarations

/-- The change declares these and nothing else. -/
def Adds (f : Declarations → Declarations) (new : Single → Prop) : Prop :=
  ∀ d x, (f d).Made x ↔ d.Made x ∨ new x

/-- Imports and statements may be declared again. -/
theorem adds_none {f : Declarations → Declarations}
    (hf : ∀ d, (f d).model = d.model ∧ (f d).namePos = d.namePos ∧ (f d).parameters = d.parameters) :
    Adds f fun _ => False := by
  intro d x
  obtain ⟨hmodel, hname, hparameters⟩ := hf d
  cases x <;> simp [Made, hmodel, hname, hparameters]

theorem adds_model (type : List Token) (pos : Option Position) :
    Adds (fun d => { d with model := some type, modelPos := pos }) (· = .model) := by
  intro d x
  cases x <;> simp [Made]

theorem adds_name (value : Text) {pos : Option Position} (hpos : pos.isSome = true) :
    Adds (fun d => { d with name := value, namePos := pos }) (· = .name) := by
  intro d x
  cases x <;> simp [Made, hpos]

theorem adds_parameter (name value : Text) (pos : Option Position) :
    Adds (fun d => { d with parameters := d.parameters ++ [(name, value, pos)] }) (· = .parameter name) := by
  intro d x
  cases x with
  | parameter other =>
    by_cases hname : name = other <;> cases hfound : d.parameters.find? (·.1 = other) <;>
      simp [Made, List.find?_append, hname, hfound, Ne.symm]
  | _ => simp [Made]

theorem adds_import (i : Import) : Adds (·.addImport i) fun _ => False :=
  adds_none fun d => by
    unfold addImport
    split <;> exact ⟨rfl, rfl, rfl⟩

theorem adds_inject (stmt : List Token) : Adds (·.addInject stmt) fun _ => False :=
  adds_none fun d => by
    unfold addInject
    split <;> exact ⟨rfl, rfl, rfl⟩

theorem adds_foldl {ι : Type} {g : Declarations → ι → Declarations} (hg : ∀ i, Adds (g · i) fun _ => False)
    (is : List ι) : Adds (fun d => is.foldl g d) fun _ => False := by
  intro d x
  induction is generalizing d with
  | nil => simp
  | cons i is ih =>
    have hrest := (ih (g d i)).trans (or_congr_left (hg i d x))
    simpa using hrest

theorem adds_included (imports : List Import) (injects : List (List Token)) :
    Adds (fun d => injects.foldl addInject (imports.foldl addImport d)) fun _ => False := by
  intro d x
  rw [adds_foldl adds_inject, adds_foldl adds_import]
  simp

theorem adds_section (name : Text) (code : Declarations → List Token) :
    Adds (fun d => d.putSection name (code d)) fun _ => False := adds_none fun _ => ⟨rfl, rfl, rfl⟩

end Declarations

namespace Seam
open Directive
variable {P : Seam} {loop : Nat → ParseM (Option ClosingTag)} {t t' : Tools} {ts us : List Token}
variable {α β : Type} {R : α → β → Prop}

/-- The directives end in the same way, and do not end the group or file that they stand in. -/
def SameGoing (a b : Atmark.Outcome) : Prop := b = a ∧ a ≠ .leave

/-! ## Declarations -/

theorem declare_follows {f f' : Declarations → Declarations} {new : Single → Prop} (hf : Declarations.Adds f new)
    (hf' : Declarations.Adds f' new) : P.Follows (declare f) (declare f') fun _ _ => True := by
  refine .modify fun s s' hs => { hs with declared := fun x => ?_ }
  rw [hf, hf', hs.declared]
  tauto

theorem declared_follows {f f' : Declarations → Declarations} {new : Single → Prop} (hf : Declarations.Adds f new)
    (hf' : Declarations.Adds f' new) : P.Follows (do
      declare f
      trimLine
      return Atmark.Outcome.next) (do
      declare f'
      trimLine
      return Atmark.Outcome.next) SameGoing :=
  (declare_follows hf hf').bind fun _ _ _ => trimLine_follows.bind fun _ _ _ => .pure ⟨rfl, by simp⟩

theorem declarable_follows (id id' : Ident) : P.Follows (declarable id) (declarable id') fun _ _ => True := by
  refine Follows.get.bind fun s s' hs => ?_
  rw [hs.includers]
  exact .guard (fun h => h) fun _ => .pure trivial

/-- The next token is the argument of the directive in both runs. -/
theorem At.argument {f f' : Token → ParseM β} {Q : β → β → Prop} {id id' : Ident} {expecting : String}
    (h : Token.Alongside P.after ts us)
    (hf : ∀ tok u ts' us', ts = tok :: ts' → us = u :: us' → Token.Same tok u → Token.Alongside P.after ts' us' →
      P.From ts us (f tok) (f' u) Q) :
    P.From ts us (argument id expecting >>= f) (argument id' expecting >>= f') Q := by
  cases ts with
  | nil =>
    refine .never fun s a u hrest hret => ?_
    obtain ⟨_, _, harg, -⟩ := hret.bind
    have hhead := (argument_returns harg).1
    rw [hrest] at hhead
    cases hhead
  | cons tok ts =>
    obtain ⟨u, us, rfl, hu, hmore⟩ := h.cons
    have hargument : P.From (tok :: ts) (u :: us) (Directive.argument id expecting)
        (Directive.argument id' expecting) fun a b => a = tok ∧ b = u := by
      refine .peek ?_
      dsimp only [List.head?_cons]
      rw [hu.glued]
      split
      · refine .never fun _ _ _ _ hret => ?_
        obtain ⟨_, _, hret, -⟩ := hret.bind
        exact hret.unexpected
      · exact .setLast (Follows.start (.pure ⟨rfl, rfl⟩))
    have hkeeps {id : Ident} {s : State} {a : Token} {v : State}
        (hret : Returns (Directive.argument id expecting) s a v) : v.stream = s.stream :=
      (argument_returns hret).2.stream_eq
    refine .keep hargument (fun _ _ _ => hkeeps) (fun _ _ _ => hkeeps) ?_
    rintro _ _ ⟨rfl, rfl⟩
    exact hf _ _ _ _ rfl rfl hu hmore

/-- What can be said of types while their tokens are read. -/
theorem typePath_from {arguments arguments' : Option Position → ParseM (List Token)}
    (ha : ∀ pos pos', P.Follows (arguments pos) (arguments' pos') fun _ _ => True)
    (h : Token.Alongside P.after ts us) :
    P.From ts us (typePath arguments ts) (typePath arguments' us) fun _ _ => True := by
  have hnone {ts us : List Token} : P.From ts us (pure []) (pure []) fun _ _ : List Token => True :=
    Follows.start (.pure trivial)
  fun_induction typePath arguments ts generalizing us with
  | case1 =>
    cases us with
    | nil => exact hnone
    | cons u us =>
      rw [typePath.eq_def arguments' (u :: us)]
      simp only [h.not_glued P.parted, Bool.not_false, if_true]
      exact hnone
  | case2 tok ts hglued =>
    obtain ⟨u, us, rfl, hu, -⟩ := h.cons
    rw [typePath.eq_def arguments' (u :: us)]
    simp only [hu.glued, hglued, if_true]
    exact hnone
  | case3 tok ts hglued ihPath ihDot =>
    have hcolons := h.colons P.parted
    obtain ⟨u, us, rfl, hu, hrest⟩ := h.cons
    rw [typePath.eq_def arguments' (u :: us)]
    have hsegment (pos pos' : Option Position) (as bs : List Token) (n n' : Ident) (k : Nat) (hk : k ≤ as.length)
        {as' bs' : List Token} (ih : P.From (as.drop k) (bs.drop k) (typePath arguments as')
          (typePath arguments' bs') fun _ _ => True) :
        P.From as bs (do
          skip k
          return .mark pos '.' :: .word n.pos n.name :: (← typePath arguments as')) (do
          skip k
          return .mark pos' '.' :: .word n'.pos n'.name :: (← typePath arguments' bs')) fun _ _ => True :=
      .skip hk (ih.bind fun _ _ _ => .pure trivial)
    simp only [hu.glued, hglued]
    refine .setLast ?_
    rw [hu.isPunct, hu.isPunct, hu.isPunct, hcolons]
    split
    · refine .guard (fun hc => hc) fun htwo => ?_
      cases ts with
      | nil =>
        simp only [colons, gluedColons, Nat.zero_add] at htwo
        split at htwo <;> simp at htwo
      | cons c ts =>
        obtain ⟨c', us, rfl, -, hmore⟩ := hrest.cons
        refine .identSecond hmore Follows.fail.start ?_
        rintro n npos as' bs' rfl rfl hmore
        exact hsegment _ _ (_ :: _ :: _ :: as') (_ :: _ :: _ :: bs') n _ 3 (by simp) (ihPath hmore)
    split
    · refine .ident hrest hnone ?_
      rintro n npos as' bs' rfl rfl hmore
      exact hsegment _ _ (_ :: _ :: as') (_ :: _ :: bs') n _ 2 (by simp) (ihDot hmore)
    split
    · refine .skip (by simp) (Follows.start ?_)
      exact (ha _ _).bind fun _ _ _ => .pure trivial
    · exact hnone

theorem isTypePrefix_same {tok u : Token} (h : Token.Same tok u) : isTypePrefix u = isTypePrefix tok := by
  cases h.moved with
  | group f pos hds => simp only [isTypePrefix, Token.isEmpty_congr hds]
  | ident | literal | punct => rfl

theorem typeFrom_from {arguments arguments' : Option Position → ParseM (List Token)}
    (ha : ∀ pos pos', P.Follows (arguments pos) (arguments' pos') fun _ _ => True)
    (h : Token.Alongside P.after ts us) :
    P.From ts us (typeFrom arguments ts) (typeFrom arguments' us) fun _ _ => True := by
  induction ts generalizing us with
  | nil =>
    refine .never fun s a u _ hret => ?_
    obtain ⟨_, _, -, hret⟩ := hret.bind
    exact hret.fail
  | cons tok ts ih =>
    obtain ⟨u, us, rfl, hu, hrest⟩ := h.cons
    unfold typeFrom
    rw [isTypePrefix_same hu]
    split
    · refine .skip (by simp) ?_
      rw [hrest.any_head P.parted (fun _ _ hs => hs.glued) fun _ hg => hg]
      split
      · exact (ih hrest).bind fun _ _ _ => .pure trivial
      · exact Follows.fail.start
    · cases hu.moved with
      | ident id pos => exact .skip (by simp) ((typePath_from ha hrest).bind fun _ _ _ => .pure trivial)
      | literal | punct | group => exact Follows.unexpected.start

mutual

theorem typeWithin_follows (n n' : Nat) : P.Follows (typeWithin n) (typeWithin n') fun _ _ => True := by
  match n, n' with
  | 0, _ => exact .throw
  | _ + 1, 0 => exact .exhausted
  | n + 1, n' + 1 =>
    refine checkStop_follows.bind fun _ _ _ => .ofRest fun ts us h _ _ => .rest ?_
    exact typeFrom_from (typeArguments_follows n n') h

theorem typeArguments_follows (n n' : Nat) (pos pos' : Option Position) :
    P.Follows (typeArguments n pos) (typeArguments n' pos') fun _ _ => True := by
  match n, n' with
  | 0, _ => exact .throw
  | _ + 1, 0 => exact .exhausted
  | n + 1, n' + 1 =>
    refine (typeWithin_follows n n').bind fun _ _ _ => .ofRest fun ts us h _ _ => .peek ?_
    cases ts with
    | nil => exact Follows.fail.start
    | cons tok ts =>
      obtain ⟨u, us, rfl, hu, -⟩ := h.cons
      refine .skip (by simp) ?_
      rw [hu.isPunct, hu.isPunct]
      split
      · exact Follows.start (.pure trivial)
      split
      · exact ((typeArguments_follows n n' pos pos').bind fun _ _ _ => .pure trivial).start
      · exact Follows.unexpected.start

end

theorem typeName_follows : P.Follows typeName typeName fun _ _ => True :=
  rest_follows.bind fun _ _ _ => typeWithin_follows _ _

theorem stringArgument_follows (id id' : Ident) :
    P.Follows (stringArgument id) (stringArgument id') fun a b => b = a := by
  refine .ofRest fun ts us h _ _ => At.argument h fun tok u ts us hts hus hu hrest => ?_
  subst hts hus
  cases hu.moved with
  | literal l pos =>
    refine .guard (fun hc => hc) fun _ => .skip (by simp) ?_
    rw [show Literal.value? { l with pos } = l.value? from rfl]
    split
    · exact Follows.start (.pure rfl)
    · exact Follows.fail.start
  | ident | punct | group => exact Follows.unexpected.start

theorem model_follows (id : Ident) (pos : Option Position) :
    P.Follows (model id) (model { id with pos }) SameGoing := by
  refine .ofRest fun ts us h _ _ => .peek ?_
  have hfollows : (us.head?.any fun t => !t.glued && !Text.breaksLine t.space) =
      ts.head?.any fun t => !t.glued && !Text.breaksLine t.space :=
    h.any_head_unbroken P.parted (fun t u hs => by rw [hs.glued, hs.space]) fun t ht => by
      simpa using (Bool.and_eq_true_iff.mp ht).2
  dsimp only
  rw [hfollows]
  split
  · exact Follows.start (.pure ⟨rfl, by simp⟩)
  refine Follows.start ((declarable_follows _ _).bind fun _ _ _ => Follows.get.bind fun s s' hs => ?_)
  refine .guard (fun hc => (hs.declared .model).mpr (.inl hc)) fun _ => ?_
  refine .ofRest fun ts us h _ _ => At.argument h fun tok u ts us hts hus hu hrest => Follows.start ?_
  exact typeName_follows.bind fun _ _ _ => declared_follows (Declarations.adds_model _ _) (Declarations.adds_model _ _)

theorem viewName_follows {id : Ident} {pos : Option Position} (hid : id.pos.isSome = true) (hpos : pos.isSome = true) :
    P.Follows (viewName id) (viewName { id with pos }) SameGoing := by
  refine (declarable_follows _ _).bind fun _ _ _ => Follows.get.bind fun s s' hs => ?_
  refine .guard (fun hc => (hs.declared .name).mpr (.inl hc)) fun _ => ?_
  refine (stringArgument_follows _ _).next fun value => ?_
  exact .guard (fun hc => hc) fun _ =>
    declared_follows (Declarations.adds_name _ hid) (Declarations.adds_name _ hpos)

theorem parameter_follows (id : Ident) (pos : Option Position) :
    P.Follows (parameter id) (parameter { id with pos }) SameGoing := by
  refine (declarable_follows _ _).bind fun _ _ _ => Follows.get.bind fun s s' hs => ?_
  have hdeclared := hs.declared (.parameter id.name)
  simp only [Declarations.Made] at hdeclared
  dsimp only
  cases hfound : s.declared.parameters.find? (·.1 = id.name) with
  | some => exact .fail
  | none =>
    cases hfound' : s'.declared.parameters.find? (·.1 = id.name) with
    | some => simp [hfound, hfound'] at hdeclared
    | none =>
      refine (stringArgument_follows _ _).next fun value => ?_
      exact declared_follows (Declarations.adds_parameter _ _ _) (Declarations.adds_parameter _ _ _)

theorem importName_from {tok u : Token} (hu : Token.Same tok u) :
    P.From (tok :: ts) (u :: us) importName importName fun a b => b = a := by
  have hnone {ts us : List Token} : P.From ts us (pure []) (pure []) fun a b : Text => b = a := Follows.start (.pure rfl)
  refine .peek ?_
  cases hu.moved with
  | ident id pos => exact .skip (by simp) (Follows.start (.pure rfl))
  | punct p pos =>
    dsimp only [List.head?_cons]
    split
    · exact .skip (by simp) (Follows.start (.pure rfl))
    · exact hnone
  | literal | group => exact hnone

theorem use_follows (id : Ident) (pos : Option Position) : P.Follows (use id) (use { id with pos }) SameGoing := by
  refine .ofRest fun ts us h _ _ => At.argument h fun tok u ts us hts hus hu hrest => ?_
  subst hts hus
  refine (importName_from hu).bind fun name name' hname => .ofRest fun ts us h _ _ => .peek ?_
  cases ts with
  | nil => exact Follows.fail.start
  | cons tok ts =>
    obtain ⟨u, us, rfl, hu, hrest⟩ := h.cons
    refine .skip (by simp) ?_
    simp only [List.drop_succ_cons, List.drop_zero]
    cases hu.moved with
    | literal l pos =>
      refine .guard (fun hc => hc) fun _ => ?_
      rw [show Literal.value? { l with pos } = l.value? from rfl]
      cases l.value? with
      | none => exact Follows.fail.start
      | some path =>
        have hadd := declared_follows (P := P) (Declarations.adds_import ⟨name, path⟩)
          (Declarations.adds_import ⟨name', path⟩)
        have hsemicolon : (us.head?.any fun t => t.isPunct ';' && !Text.breaksLine t.space) =
            ts.head?.any fun t => t.isPunct ';' && !Text.breaksLine t.space :=
          hrest.any_head_unbroken P.parted (fun t u hs => by rw [hs.isPunct, hs.space]) fun t ht => by
            simpa using (Bool.and_eq_true_iff.mp ht).2
        dsimp only
        cases ImportPath.trouble path with
        | some trouble =>
          refine .never fun _ _ _ _ hret => ?_
          obtain ⟨_, _, hret, -⟩ := hret.bind
          exact hret.fail
        | none =>
          refine .peek ?_
          rw [hsemicolon]
          split
          · rename_i hnext
            refine .skip ?_ hadd.start
            cases ts with
            | nil => cases hnext
            | cons => simp
          · exact hadd.start
    | ident | punct | group => exact Follows.unexpected.start

/-- A statement ends at the same token. -/
theorem statement_along (isFirst : Bool) (h : Token.Alongside P.after ts us) (hts : isFirst = true → ts ≠ []) :
    Token.unplacedAll (statement isFirst us).1 = Token.unplacedAll (statement isFirst ts).1 ∧
      (statement isFirst us).2 = (statement isFirst ts).2 ∧ (statement isFirst ts).2 ≤ ts.length := by
  induction ts generalizing us isFirst with
  | nil =>
    cases isFirst with
    | true => exact (hts rfl rfl).elim
    | false =>
      cases us with
      | nil => exact ⟨rfl, rfl, Nat.le_refl _⟩
      | cons u us => simp [statement, h.parted P.parted]
  | cons tok ts ih =>
    obtain ⟨u, us, rfl, hu, hrest⟩ := h.cons
    obtain ⟨hstmt, hcount, hlength⟩ := ih false hrest nofun
    rw [statement, statement, hu.space, hu.isPunct]
    split
    · exact ⟨rfl, rfl, Nat.zero_le _⟩
    split
    · exact ⟨rfl, rfl, by simp⟩
    · dsimp only
      exact ⟨by rw [Token.unplacedAll, Token.unplacedAll, hstmt, hu], by rw [hcount], Nat.succ_le_succ hlength⟩

theorem assigns_unplacedAll (stmt : List Token) : assigns (Token.unplacedAll stmt) = assigns stmt := by
  induction stmt with
  | nil => rfl
  | cons t stmt ih =>
    cases stmt with
    | nil => rfl
    | cons u stmt =>
      simp only [Token.unplacedAll, assigns, Token.isPunct_unplaced, Token.glued_unplaced] at ih ⊢
      rw [ih, Token.isEmpty_congr (Token.unplacedAll_unplacedAll stmt)]

theorem isDeclaration_congr {stmt stmt' : List Token} (h : Token.unplacedAll stmt' = Token.unplacedAll stmt) :
    isDeclaration stmt' = isDeclaration stmt := by
  cases stmt with
  | nil =>
    cases stmt' with
    | nil => rfl
    | cons => cases h
  | cons t stmt =>
    cases stmt' with
    | nil => cases h
    | cons u stmt' =>
      obtain ⟨hu, hrest⟩ := Token.Same.of_cons h
      have hassigns : assigns stmt' = assigns stmt := by rw [← assigns_unplacedAll, hrest, assigns_unplacedAll]
      rw [isDeclaration, isDeclaration, hu.isNamed, Token.isEmpty_congr hrest, hassigns]

theorem inject_follows (id : Ident) (pos : Option Position) :
    P.Follows (inject id) (inject { id with pos }) SameGoing := by
  refine .ofRest fun ts us h _ _ => At.argument h fun tok u ts us hts hus hu hrest => ?_
  subst hts hus
  obtain ⟨hstmt, hcount, hlength⟩ := statement_along true h fun _ => List.cons_ne_nil _ _
  refine .rest ?_
  dsimp only
  rw [hcount, isDeclaration_congr hstmt]
  refine .skip hlength (Follows.start ?_)
  exact .guard (fun hc => hc) fun _ =>
    declared_follows (Declarations.adds_inject _) (Declarations.adds_inject _)

theorem peekGroup_along {s s' : State} (hs : P.Alike s s') (d : Delimiter) {f : Frame} {cs : List Token}
    (h : s.stream.peekGroup d = some (f, cs)) :
    ∃ g ds, s'.stream.peekGroup d = some (g, ds) ∧ Groups f cs g ds ∧ 1 ≤ s.stream.rest.length := by
  have hstream := hs.stream
  have hplaced := hs.placed
  unfold Stream.peekGroup at h ⊢
  split at h
  · rename_i f' cs' ts hrest
    split at h
    · rename_i hdelim
      cases h
      rw [hrest] at hstream hplaced ⊢
      obtain ⟨_, us, hus, hu, -⟩ := hstream.cons
      rw [hus] at hplaced ⊢
      obtain ⟨pos, ds, rfl, hds⟩ := hu.group
      exact ⟨{ f with pos }, ds, if_pos hdelim, .ofSame hu (hplaced.1.group (.head _)) (hplaced.2.group (.head _)),
        by simp⟩
    · cases h
  · cases h

theorem codeSection_follows (id : Ident) (pos : Option Position) :
    P.Follows (codeSection id) (codeSection { id with pos }) SameGoing := by
  refine (declarable_follows _ _).bind fun _ _ _ => ?_
  refine .ofRest fun ts us h _ _ => At.argument h fun tok u ts us hts hus hu hrest => ?_
  subst hts hus
  refine .get fun s s' hs hts hus => ?_
  cases hgroup : s.stream.peekGroup .brace with
  | none => exact Follows.unexpected.start
  | some found =>
    obtain ⟨g, ds, hgroup', -, hlength⟩ := peekGroup_along hs .brace hgroup
    rw [hgroup']
    refine .skip (by rwa [hts] at hlength) (Follows.start ?_)
    exact declared_follows (Declarations.adds_section _ _) (Declarations.adds_section _ _)

/-! ## Loops, conditions and sections -/

section Uses
variable (ht : Uses loop t t')
include ht

theorem block_follows {f g : Frame} {cs ds : List Token} (h : Groups f cs g ds) :
    P.Follows (block t f cs) (block t' g ds) fun n n' => n'.placeless = n.placeless := by
  have hregion := region_follows (P := P) ht h false
  obtain ⟨⟨gpos, rfl⟩, -, -⟩ := h
  refine hregion.bind fun ns ns' hns => .pure ?_
  simp only [placeless, show placelessAll ns' = placelessAll ns from hns]

omit ht in
theorem spaced_congr {as bs : List Token} (h : Token.unplacedAll bs = Token.unplacedAll as) :
    Token.unplacedAll (spaced bs) = Token.unplacedAll (spaced as) := by
  cases as with
  | nil =>
    cases bs with
    | nil => rfl
    | cons => cases h
  | cons a as =>
    cases bs with
    | nil => cases h
    | cons b bs =>
      obtain ⟨hb, hrest⟩ := Token.Same.of_cons h
      rw [spaced, spaced, Token.unplacedAll, Token.unplacedAll, hrest, Token.unplaced_withSpace, hb,
        Token.unplaced_withSpace]

omit ht in
theorem emitBlock_follows (before before' : List Node) (h : placelessAll before' = placelessAll before)
    {n n' : Node} (hn : n'.placeless = n.placeless) :
    P.Follows (emit (before ++ [n])) (emit (before' ++ [n'])) fun _ _ => True :=
  emit_follows (by simp only [placelessAll_append, placelessAll, h, hn])

omit ht in
theorem keyword_follows (w w' : Token) (name : Text) (space : String) :
    P.Follows (emit [keyword w name space]) (emit [keyword w' name space]) fun _ _ => True := emit_follows rfl

theorem branch_follows (id : Ident) (pos : Option Position) :
    P.Follows (branch t id) (branch t' { id with pos }) fun _ _ => True := by
  refine .ofRest fun ts us h hts hus => .rest ?_
  refine (untilBrace_from h hts hus _ _ _ _).bind ?_
  rintro ⟨header, f, cs⟩ ⟨header', g, ds⟩ ⟨hheader, hgroups⟩
  dsimp only at hheader hgroups ⊢
  rw [Token.isEmpty_congr hheader]
  refine .guard (fun hc => hc) fun _ => ?_
  refine (block_follows ht hgroups).bind fun body body' hbody => ?_
  refine (emit_follows (placelessAll_ofTokens (spaced_congr hheader))).bind fun _ _ _ => ?_
  exact emitBlock_follows [] [] rfl hbody

theorem whileLoop_follows (id : Ident) (pos : Option Position) :
    P.Follows (whileLoop t id) (whileLoop t' { id with pos }) SameGoing := by
  refine .ofRest fun ts us h hts hus => .rest ?_
  refine (untilBrace_from h hts hus _ _ _ _).bind ?_
  rintro ⟨header, f, cs⟩ ⟨header', g, ds⟩ ⟨hheader, hgroups⟩
  dsimp only at hheader hgroups ⊢
  rw [Token.isEmpty_congr hheader]
  refine .guard (fun hc => hc) fun _ => ?_
  refine (block_follows ht hgroups).bind fun body body' hbody => ?_
  refine (keyword_follows _ _ _ _).bind fun _ _ _ => ?_
  refine (emit_follows (placelessAll_ofTokens (spaced_congr hheader))).bind fun _ _ _ => ?_
  exact (emitBlock_follows [] [] rfl hbody).bind fun _ _ _ => .pure ⟨rfl, by simp⟩

omit ht in
theorem splitAtFirst_congr {p : Token → Bool} (hp : ∀ t u, Token.Same t u → p u = p t) {ts us : List Token}
    (h : Token.unplacedAll us = Token.unplacedAll ts) :
    (splitAtFirst p ts = none ∧ splitAtFirst p us = none) ∨
      ∃ before word after before' word' after', splitAtFirst p ts = some (before, word, after) ∧
        splitAtFirst p us = some (before', word', after') ∧ Token.unplacedAll before' = Token.unplacedAll before ∧
        Token.Same word word' ∧ Token.unplacedAll after' = Token.unplacedAll after := by
  induction ts generalizing us with
  | nil =>
    cases us with
    | nil => exact .inl ⟨rfl, rfl⟩
    | cons => cases h
  | cons t ts ih =>
    cases us with
    | nil => cases h
    | cons u us =>
      obtain ⟨hu, hrest⟩ := Token.Same.of_cons h
      rw [splitAtFirst, splitAtFirst, hp t u hu]
      split
      · exact .inr ⟨_, _, _, _, _, _, rfl, rfl, rfl, hu, hrest⟩
      · rcases ih hrest with ⟨hts, hus⟩ | ⟨_, _, _, _, _, _, hts, hus, hbefore, hword, hafter⟩
        · rw [hts, hus]
          exact .inl ⟨rfl, rfl⟩
        · rw [hts, hus]
          refine .inr ⟨_, _, _, _, _, _, rfl, rfl, ?_, hword, hafter⟩
          rw [Token.unplacedAll, Token.unplacedAll, hbefore, hu]

omit ht in
theorem splitAtRange_congr {ts us : List Token} (h : Token.unplacedAll us = Token.unplacedAll ts) :
    (splitAtRange ts = none ∧ splitAtRange us = none) ∨
      ∃ first pos after first' pos' after', splitAtRange ts = some (first, pos, after) ∧
        splitAtRange us = some (first', pos', after') ∧ Token.unplacedAll first' = Token.unplacedAll first ∧
        Token.unplacedAll after' = Token.unplacedAll after := by
  induction ts generalizing us with
  | nil =>
    cases us with
    | nil => exact .inl ⟨rfl, rfl⟩
    | cons => cases h
  | cons t ts ih =>
    cases us with
    | nil => cases h
    | cons u us =>
      obtain ⟨hu, hrest⟩ := Token.Same.of_cons h
      cases ts with
      | nil =>
        cases us with
        | nil => exact .inl ⟨rfl, rfl⟩
        | cons => cases hrest
      | cons t₂ ts =>
        cases us with
        | nil => cases hrest
        | cons u₂ us =>
          obtain ⟨hu₂, hafter⟩ := Token.Same.of_cons hrest
          rw [splitAtRange, splitAtRange, hu.isPunct, hu₂.isPunct, hu₂.glued]
          split
          · exact .inr ⟨_, _, _, _, _, _, rfl, rfl, rfl, hafter⟩
          · rcases ih hrest with ⟨hts, hus⟩ | ⟨_, _, _, _, _, _, hts, hus, hbefore, hafter⟩
            · rw [hts, hus]
              exact .inl ⟨rfl, rfl⟩
            · rw [hts, hus]
              refine .inr ⟨_, _, _, _, _, _, rfl, rfl, ?_, hafter⟩
              rw [Token.unplacedAll, Token.unplacedAll, hbefore, hu]

omit ht in
/-- The variables of a loop have the same names. -/
def SameVariables (v v' : Ident × Option Ident) : Prop :=
  v'.1.name = v.1.name ∧ v'.2.map (·.name) = v.2.map (·.name)

omit ht in
theorem pattern_congr {ts us : List Token} (h : Token.unplacedAll us = Token.unplacedAll ts)
    {pos : Option Position} (pos' : Option Position) {vars : Ident × Option Ident} (hvars : pattern ts pos = .ok vars) :
    ∃ vars', pattern us pos' = .ok vars' ∧ SameVariables vars vars' := by
  have h : Token.Alongside [] ts us := .of_eq h
  unfold pattern at hvars
  split at hvars
  · cases hvars
    obtain ⟨_, us, rfl, hu, hrest⟩ := h.cons
    obtain rfl := hrest.nil
    obtain ⟨_, rfl⟩ := hu.ident
    exact ⟨_, rfl, rfl, rfl⟩
  · rename_i f a comma b _
    split at hvars
    · rename_i hcomma
      cases hvars
      obtain ⟨_, us, rfl, hu, hrest⟩ := h.cons
      obtain rfl := hrest.nil
      obtain ⟨_, ds, rfl, hds⟩ := hu.group
      obtain ⟨_, ds, rfl, ha, hds⟩ := Token.Alongside.cons (.of_eq hds)
      obtain ⟨_, ds, rfl, hc, hds⟩ := hds.cons
      obtain ⟨_, ds, rfl, hb, hds⟩ := hds.cons
      obtain rfl := hds.nil
      obtain ⟨apos, rfl⟩ := ha.ident
      obtain ⟨bpos, rfl⟩ := hb.ident
      refine ⟨({ a with pos := apos }, some { b with pos := bpos }), ?_, rfl, rfl⟩
      rw [pattern, hc.isPunct, if_pos hcomma]
    · cases hvars
  · cases hvars
  · cases hvars

omit ht in
theorem rangeClause_congr {v v' : Ident} (hname : v'.name = v.name) (pos pos' : Option Position)
    {first first' last last' : List Token} (hfirst : Token.unplacedAll first' = Token.unplacedAll first)
    (hlast : Token.unplacedAll last' = Token.unplacedAll last) (inclusive : Bool) :
    placelessAll (rangeClause v' pos' first' last' inclusive) = placelessAll (rangeClause v pos first last inclusive) := by
  have hfirst := placelessAll_ofTokens (spaced_congr hfirst)
  have hlast := placelessAll_ofTokens (spaced_congr hlast)
  cases inclusive <;>
    simp [rangeClause, keyword, sign, placelessAll_append, placelessAll, placeless, hname, hfirst, hlast]

omit ht in
theorem iterationClause_congr {vars vars' : Ident × Option Ident} (hvars : SameVariables vars vars')
    (word word' : Token) {expr expr' : List Token} (h : Token.unplacedAll expr' = Token.unplacedAll expr) :
    placelessAll (iterationClause vars' word' expr') = placelessAll (iterationClause vars word expr) := by
  have hexpr := placelessAll_ofTokens (spaced_congr h)
  obtain ⟨v, second⟩ := vars
  obtain ⟨v', second'⟩ := vars'
  obtain ⟨hname, hsecond⟩ := hvars
  cases second <;> cases second' <;> simp at hname hsecond <;>
    simp [iterationClause, keyword, sign, placelessAll, placeless, hname, hsecond, hexpr]

omit ht in
theorem patternClause_congr {vars vars' : Ident × Option Ident} (hvars : SameVariables vars vars') {word word' : Token}
    {expr expr' : List Token} (h : Token.unplacedAll expr' = Token.unplacedAll expr) {clause : List Node}
    (hclause : patternClause vars word expr = .ok clause) :
    ∃ clause', patternClause vars' word' expr' = .ok clause' ∧ placelessAll clause' = placelessAll clause := by
  unfold patternClause at hclause ⊢
  rw [Token.isEmpty_congr h]
  split at hclause
  · cases hclause
  rename_i hempty
  rw [if_neg hempty]
  rcases splitAtRange_congr h with
    ⟨hnone, hnone'⟩ | ⟨first, pos, after, first', pos', after', hsome, hsome', hfirst, hafter⟩
  · rw [hnone] at hclause
    rw [hnone']
    cases hclause
    exact ⟨_, rfl, iterationClause_congr hvars _ _ h⟩
  · have hinclusive : (after'.head?.any fun t => t.isPunct '=' && t.glued) =
        after.head?.any fun t => t.isPunct '=' && t.glued :=
      (Token.Alongside.of_eq hafter).any_head .nil (fun t u hs => by rw [hs.isPunct, hs.glued]) fun t ht =>
        (Bool.and_eq_true_iff.mp ht).2
    rw [hsome] at hclause
    rw [hsome']
    dsimp only at hclause ⊢
    rw [hinclusive]
    generalize (after.head?.any fun t => t.isPunct '=' && t.glued) = inclusive at hclause ⊢
    have hlast : Token.unplacedAll (if inclusive then after'.tail else after') =
        Token.unplacedAll (if inclusive then after.tail else after) := by
      cases inclusive with
      | false => exact hafter
      | true =>
        rw [← List.drop_one, ← List.drop_one]
        simp only [if_true, Token.unplacedAll_drop, hafter]
    rw [Token.isEmpty_congr hfirst, Token.isEmpty_congr hlast]
    generalize (if inclusive then after.tail else after) = last at hclause hlast ⊢
    split at hclause
    · cases hclause
    rename_i hparts
    rw [if_neg hparts]
    obtain ⟨v, second⟩ := vars
    obtain ⟨v', second'⟩ := vars'
    cases second with
    | some => cases hclause
    | none =>
      cases second' with
      | some => cases hvars.2
      | none =>
        cases hclause
        exact ⟨_, rfl, rangeClause_congr hvars.1 _ _ hfirst hlast _⟩

omit ht in
/-- The clause of a loop does not depend on where its header stands. -/
theorem forClause_congr {header header' : List Token} (h : Token.unplacedAll header' = Token.unplacedAll header)
    {clause : List Node} (hclause : forClause header = .ok clause) :
    ∃ clause', forClause header' = .ok clause' ∧ placelessAll clause' = placelessAll clause := by
  unfold forClause at hclause ⊢
  rcases splitAtFirst_congr (p := (·.isNamed "in")) (fun _ _ hs => hs.isNamed _) h with
    ⟨hnone, hnone'⟩ | ⟨before, word, after, before', word', after', hsome, hsome', hbefore, hword, hafter⟩
  · rw [hnone] at hclause
    rw [hnone']
    cases hclause
    exact ⟨_, rfl, placelessAll_ofTokens h⟩
  · rw [hsome] at hclause
    rw [hsome']
    cases hvars : pattern before word.pos with
    | error e =>
      simp only [hvars, Bind.bind, Except.bind] at hclause
      cases hclause
    | ok vars =>
      obtain ⟨vars', hvars', hsame⟩ := pattern_congr hbefore word'.pos hvars
      simp only [hvars, hvars', Bind.bind, Except.bind] at hclause ⊢
      exact patternClause_congr hsame hafter hclause

theorem forLoop_follows (id : Ident) (pos : Option Position) :
    P.Follows (forLoop t id) (forLoop t' { id with pos }) SameGoing := by
  refine .ofRest fun ts us h hts hus => .rest ?_
  refine (untilBrace_from h hts hus _ _ _ _).bind ?_
  rintro ⟨header, f, cs⟩ ⟨header', g, ds⟩ ⟨hheader, hgroups⟩
  dsimp only at hheader hgroups ⊢
  cases hclause : forClause header with
  | error e => exact .throw
  | ok clause =>
    obtain ⟨clause', hclause', hsame⟩ := forClause_congr hheader hclause
    rw [hclause']
    refine (block_follows ht hgroups).bind fun body body' hbody => ?_
    refine (keyword_follows _ _ _ _).bind fun _ _ _ => ?_
    refine (emit_follows hsame).bind fun _ _ _ => ?_
    exact (emitBlock_follows [] [] rfl hbody).bind fun _ _ _ => .pure ⟨rfl, by simp⟩

omit ht in
/-- A condition goes on with the token. -/
def goesOn (next : Token) : Bool := next.isNamed "if" || next.isGroup .brace

omit ht in
theorem goesOn_same {tok u : Token} (h : Token.Same tok u) : goesOn u = goesOn tok := by
  rw [goesOn, goesOn, h.isNamed, h.isGroup]

omit ht in
/-- The word before the end of the first tokens is no `else` that the tokens after them go on with. -/
theorem not_goesOn {tok u : Token} (ts : List Token) (hends : P.after ≠ [] → ¬ElseSplits (ts ++ [tok]) P.after)
    (h : Token.Alongside P.after [] (u :: us)) (helse : tok.isNamed "else" = true) : goesOn u = false := by
  have hafter : P.after = u.unplaced :: Token.unplacedAll us := h.symm
  have hsame : Token.Same u.unplaced u := by simp [Token.Same]
  cases hgo : goesOn u with
  | false => rfl
  | true =>
    refine (hends (by simp [hafter]) ⟨by simp [helse], ?_⟩).elim
    rw [hafter]
    exact (goesOn_same hsame).symm.trans hgo

omit ht in
theorem elseAhead_none (h : elseAhead (Token.unplacedAll ts) = none) : elseAhead ts = none := by
  have hnamed (t : Token) (name : String) : t.unplaced.isNamed name = t.isNamed name :=
    (Token.Same.isNamed (t := t) (u := t.unplaced) (by simp [Token.Same]) name)
  rcases ts with _ | ⟨a, _ | ⟨b, _ | ⟨c, ts⟩⟩⟩
  · rfl
  · rfl
  · simp only [elseAhead, Token.unplacedAll, hnamed] at h ⊢
    split at h
    · cases h
    · rename_i hno
      rw [if_neg hno]
  · simp only [elseAhead, Token.unplacedAll, hnamed, Token.isPunct_unplaced, Token.glued_unplaced] at h ⊢
    split at h
    · rename_i hmarker
      rw [if_pos hmarker]
      split at h
      · cases h
      · rename_i hno
        rw [if_neg hno]
    · rename_i hmarker
      rw [if_neg hmarker]
      split at h
      · cases h
      · rename_i hno
        rw [if_neg hno]

omit ht in
/-- Both runs find the same branch, or neither finds one. -/
theorem elseAhead_along (h : Token.Alongside P.after ts us) (hends : P.after ≠ [] → ¬ElseSplits ts P.after) :
    ((∀ r ∈ elseAhead ts, goesOn r.2.1 = false) ∧ ∀ r ∈ elseAhead us, goesOn r.2.1 = false) ∨
      ∃ word next word' next' count, elseAhead ts = some (word, next, count) ∧
        elseAhead us = some (word', next', count) ∧ Token.Same next next' ∧ next ∈ ts ∧ next' ∈ us ∧
        count ≤ ts.length := by
  have hlate {u : Token} {us : List Token} (h : Token.Alongside P.after [] (u :: us)) : u.glued = false :=
    h.not_glued P.parted
  rcases ts with _ | ⟨w, _ | ⟨n, _ | ⟨x, ts⟩⟩⟩
  · refine .inl ⟨nofun, ?_⟩
    rw [elseAhead_none (h ▸ P.noElse)]
    exact nofun
  · obtain ⟨w', us, rfl, hw, hmore⟩ := h.cons
    refine .inl ⟨nofun, ?_⟩
    rcases us with _ | ⟨a, us⟩
    · exact nofun
    have hno (helse : w'.isNamed "else" = true) : goesOn a = false :=
      not_goesOn [] hends hmore (by rwa [hw.isNamed] at helse)
    rcases us with _ | ⟨b, us⟩
    · simp only [elseAhead]
      split
      · rename_i helse
        simpa using hno helse
      · exact nofun
    · simp only [elseAhead, hlate hmore, Bool.and_false, Bool.false_eq_true, if_false]
      split
      · exact nofun
      split
      · rename_i helse
        simpa using hno helse
      · exact nofun
  · obtain ⟨w', us, rfl, hw, hmore⟩ := h.cons
    obtain ⟨n', us, rfl, hn, hmore⟩ := hmore.cons
    have hfound (helse : w.isNamed "else" = true) : elseAhead [w, n] = some (w, n, 2) := by
      simp only [elseAhead, helse, if_true]
    rcases us with _ | ⟨a, us⟩
    · by_cases helse : w.isNamed "else" = true
      · refine .inr ⟨w, n, w', n', 2, hfound helse, ?_, hn, by simp, by simp, by simp⟩
        simp only [elseAhead, hw.isNamed, helse, if_true]
      · refine .inl ⟨?_, ?_⟩ <;> simp only [elseAhead, hw.isNamed, helse] <;> exact nofun
    · have hno (helse : n.isNamed "else" = true) : goesOn a = false := not_goesOn [w] hends hmore helse
      by_cases hmarker : w.isPunct '@' = true
      · have helse : w.isNamed "else" = false := by cases w <;> first | rfl | cases hmarker
        refine .inl ⟨?_, ?_⟩
        · simp only [elseAhead, helse]
          exact nofun
        · simp only [elseAhead, hw.isPunct, hmarker, hn.isNamed, hn.glued, if_true]
          split
          · rename_i helse
            simpa using hno (Bool.and_eq_true_iff.mp helse).1
          · exact nofun
      · by_cases helse : w.isNamed "else" = true
        · refine .inr ⟨w, n, w', n', 2, hfound helse, ?_, hn, by simp, by simp, by simp⟩
          simp only [elseAhead, hw.isPunct, hmarker, hw.isNamed, helse, if_true]
          rfl
        · refine .inl ⟨?_, ?_⟩ <;> simp only [elseAhead, hw.isPunct, hmarker, hw.isNamed, helse] <;> exact nofun
  · obtain ⟨w', us, rfl, hw, hmore⟩ := h.cons
    obtain ⟨n', us, rfl, hn, hmore⟩ := hmore.cons
    obtain ⟨x', us, rfl, hx, hmore⟩ := hmore.cons
    simp only [elseAhead, hw.isPunct, hw.isNamed, hn.isNamed, hn.glued]
    split
    · split
      · exact .inr ⟨_, _, _, _, _, rfl, rfl, hx, by simp, by simp, by simp⟩
      · exact .inl ⟨nofun, nofun⟩
    split
    · exact .inr ⟨_, _, _, _, _, rfl, rfl, hn, by simp, by simp, by simp⟩
    · exact .inl ⟨nofun, nofun⟩

omit ht in
/-- Without a branch nothing is read. -/
theorem elseBranches_ends (t : Tools) (n : Nat) {s : State}
    (h : ∀ r ∈ elseAhead s.stream.rest, goesOn r.2.1 = false) : elseBranches t (n + 1) s = .ok () s := by
  rw [elseBranches, rest_bind]
  cases hahead : elseAhead s.stream.rest with
  | none => rfl
  | some found =>
    obtain ⟨word, next, count⟩ := found
    have hno := h _ hahead
    simp only [goesOn, Bool.or_eq_false_iff] at hno
    cases next with
    | ident i =>
      dsimp only
      rw [hno.1]
      rfl
    | group f cs =>
      dsimp only
      rw [if_neg (by simpa [Token.isGroup] using hno.2)]
      rfl
    | literal | punct => rfl

theorem elseBranches_follows (n n' : Nat) :
    P.Follows (elseBranches t n) (elseBranches t' n') fun _ _ => True := by
  induction n generalizing n' with
  | zero => exact .throw
  | succ n ih =>
    cases n' with
    | zero => exact .exhausted
    | succ n' =>
      intro s s' hs
      rcases elseAhead_along hs.stream fun hne => (hs.ends hne).2 with
        ⟨hno, hno'⟩ | ⟨word, next, word', next', count, hahead, hahead', hnext, hmem, hmem', hcount⟩
      · rw [elseBranches_ends t n hno, elseBranches_ends t' n' hno']
        exact .ok trivial hs
      refine (show P.From s.stream.rest s'.stream.rest _ _ _ from .rest ?_) s s' hs rfl rfl
      rw [hahead, hahead']
      cases hnext.moved with
      | ident i pos =>
        dsimp only
        rw [hnext.isNamed]
        split
        · refine .skip hcount (Follows.start ?_)
          have hwords : P.Follows (emit [keyword word (utf8 "else") " ", keyword (.ident i) (utf8 "if") " "])
              (emit [keyword word' (utf8 "else") " ", keyword (.ident { i with pos }) (utf8 "if") " "])
              fun _ _ => True := emit_follows rfl
          refine hwords.bind fun _ _ _ => ?_
          exact (branch_follows ht i pos).bind fun _ _ _ => ih n'
        · exact Follows.start (.pure trivial)
      | group f pos hds =>
        have hgroups := Groups.ofSame hnext (hs.placed.1.group hmem) (hs.placed.2.group hmem')
        dsimp only
        split
        · refine .skip hcount (Follows.start ?_)
          refine (block_follows ht hgroups).bind fun body body' hbody => ?_
          exact emitBlock_follows [keyword word (utf8 "else") " "] [keyword word' (utf8 "else") " "] rfl hbody
        · exact Follows.start (.pure trivial)
      | literal | punct => exact Follows.start (.pure trivial)

theorem condition_follows (id : Ident) (pos : Option Position) :
    P.Follows (condition t id) (condition t' { id with pos }) SameGoing := by
  refine (keyword_follows _ _ _ _).bind fun _ _ _ => ?_
  refine (branch_follows ht id pos).bind fun _ _ _ => rest_follows.bind fun _ _ _ => ?_
  exact (elseBranches_follows ht _ _).bind fun _ _ _ => .pure ⟨rfl, by simp⟩

omit ht in
theorem sectionName?_same {tok u : Token} (h : Token.Same tok u) : sectionName? u = sectionName? tok := by
  cases h.moved <;> rfl

theorem defineSection_follows (id : Ident) (pos : Option Position) :
    P.Follows (defineSection t id) (defineSection t' { id with pos }) SameGoing := by
  refine .ofRest fun ts us h _ _ => At.argument h fun tok u ts us hts hus hu hrest => ?_
  subst hts hus
  rw [sectionName?_same hu]
  cases sectionName? tok with
  | none => exact Follows.unexpected.start
  | some name =>
    refine .skip (by simp) (.get fun s s' hs hts hus => ?_)
    cases hgroup : s.stream.peekGroup .brace with
    | none => exact Follows.fail.start
    | some found =>
      obtain ⟨f, cs⟩ := found
      obtain ⟨g, ds, hgroup', hgroups, hlength⟩ := peekGroup_along hs .brace hgroup
      rw [hgroup']
      refine .skip (by rwa [hts] at hlength) (Follows.start ?_)
      refine (region_follows ht hgroups true).bind fun ns ns' hns => ?_
      have hdefine : P.Follows (emit [.define id.pos name ns]) (emit [.define pos name ns']) fun _ _ => True :=
        emit_follows (by simp only [placelessAll, placeless, show placelessAll ns' = placelessAll ns from hns])
      exact hdefine.bind fun _ _ _ => trimLine_follows.bind fun _ _ _ => .pure ⟨rfl, by simp⟩

omit ht in
/-- A group that only the second run finds has white space before it. -/
theorem peekGroup_parted {s s' : State} (hs : P.Alike s s') (d : Delimiter) (h : s.stream.peekGroup d = none) :
    (s'.stream.peekGroup d).filter (·.1.space.isEmpty) = none := by
  have hstream := hs.stream
  unfold Stream.peekGroup at h ⊢
  cases hrest : s.stream.rest with
  | nil =>
    rw [hrest] at hstream
    split
    · rename_i f cs ts hrest'
      rw [hrest'] at hstream
      have hspace : f.space.isEmpty = false := hstream.not_glued P.parted
      split <;> simp [Option.filter, hspace]
    · rfl
  | cons tok ts =>
    rw [hrest] at hstream h
    obtain ⟨u, us, hrest', hu, -⟩ := hstream.cons
    rw [hrest']
    cases hu.moved with
    | group f pos hds =>
      dsimp only at h ⊢
      split at h
      · cases h
      · rename_i hdelim
        rw [if_neg hdelim]
        rfl
    | ident | literal | punct => rfl

omit ht in
/-- The parentheses right behind the directive are there in both runs, or in none. -/
theorem At.callArguments {f f' : Option (Frame × List Token) → ParseM β} {Q : β → β → Prop}
    (hnone : P.From ts us (f none) (f' none) Q)
    (hsome : ∀ g cs g' ds, Groups g cs g' ds → 1 ≤ ts.length → P.From ts us (f (some (g, cs))) (f' (some (g', ds))) Q) :
    P.From ts us (callArguments? >>= f) (callArguments? >>= f') Q := by
  refine fun s s' hs hts hus => ?_
  change P.Outcome Q (f ((s.stream.peekGroup .parenthesis).filter (·.1.space.isEmpty)) s)
    (f' ((s'.stream.peekGroup .parenthesis).filter (·.1.space.isEmpty)) s')
  cases hgroup : s.stream.peekGroup .parenthesis with
  | none =>
    rw [peekGroup_parted hs _ hgroup]
    exact hnone s s' hs hts hus
  | some found =>
    obtain ⟨g, cs⟩ := found
    obtain ⟨_, ds, hgroup', hgroups, hlength⟩ := peekGroup_along hs _ hgroup
    have hgroups' := hgroups
    obtain ⟨⟨pos, rfl⟩, -, -⟩ := hgroups'
    rw [hgroup']
    simp only [Option.filter]
    split
    · exact hsome _ _ _ _ hgroups (by rwa [hts] at hlength) s s' hs hts hus
    · exact hnone s s' hs hts hus

omit ht in
theorem contextCall_placeless (id : Ident) (pos : Option Position) (method : String) {f g : Frame}
    (hframe : ∃ pos, g = { f with pos }) {ns ns' : List Node} (hns : placelessAll ns' = placelessAll ns) :
    (contextCall { id with pos } method g ns').placeless = (contextCall id method f ns).placeless := by
  obtain ⟨gpos, rfl⟩ := hframe
  simp only [contextCall, placeless, placelessAll, hns, keyword, sign]

theorem renderSection_follows (id : Ident) (pos : Option Position) :
    P.Follows (renderSection t id) (renderSection t' { id with pos }) SameGoing := by
  refine .ofRest fun ts us h _ _ => At.callArguments Follows.fail.start fun f cs g ds hgroups hlength => ?_
  refine .skip hlength (Follows.start ?_)
  refine (region_follows ht hgroups false).bind fun ns ns' hns => ?_
  dsimp only
  rw [hns.isEmpty]
  refine .guard (fun hc => hc) fun _ => ?_
  exact (emitBlock_follows [] [] rfl (contextCall_placeless id pos _ hgroups.frame hns)).bind
    fun _ _ _ => .pure ⟨rfl, by simp⟩

omit ht in
theorem renderBody_follows (id : Ident) (pos : Option Position) :
    P.Follows (renderBody id) (renderBody { id with pos }) SameGoing := by
  have hcall {f g : Frame} (hframe : ∃ pos, g = { f with pos }) : P.Follows (do
      emit [contextCall id "RenderBody" f []]
      return Atmark.Outcome.next) (do
      emit [contextCall { id with pos } "RenderBody" g []]
      return Atmark.Outcome.next) SameGoing :=
    (emitBlock_follows [] [] rfl (contextCall_placeless id pos _ hframe rfl)).bind fun _ _ _ => .pure ⟨rfl, by simp⟩
  refine .ofRest fun ts us h _ _ => At.callArguments (hcall ⟨pos, rfl⟩).start fun f cs g ds hgroups hlength => ?_
  refine .skip hlength (Follows.start ?_)
  dsimp only
  rw [Token.isEmpty_congr hgroups.same]
  exact .guard (fun hc => hc) fun _ => hcall hgroups.frame

/-! ## Contents of other files -/

omit ht in
/-- A path without quotes ends at the same token. -/
theorem pathTokens_along (isFirst : Bool) (h : Token.Alongside P.after ts us) (hts : isFirst = true → ts ≠ []) :
    Token.unplacedAll (pathTokens isFirst us) = Token.unplacedAll (pathTokens isFirst ts) ∧
      (pathTokens isFirst ts).length ≤ ts.length := by
  induction ts generalizing us isFirst with
  | nil =>
    cases isFirst with
    | true => exact (hts rfl rfl).elim
    | false =>
      cases us with
      | nil => exact ⟨rfl, Nat.le_refl _⟩
      | cons u us => simp [pathTokens, h.not_glued P.parted]
  | cons tok ts ih =>
    obtain ⟨u, us, rfl, hu, hrest⟩ := h.cons
    obtain ⟨hsame, hlength⟩ := ih false hrest nofun
    have hword (hgroup : ∀ f cs, tok ≠ .group f cs) (hgroup' : ∀ f cs, u ≠ .group f cs) :
        Token.unplacedAll (pathTokens isFirst (u :: us)) = Token.unplacedAll (pathTokens isFirst (tok :: ts)) ∧
          (pathTokens isFirst (tok :: ts)).length ≤ (tok :: ts).length := by
      rw [pathTokens.eq_3 _ _ _ hgroup, pathTokens.eq_3 _ _ _ hgroup', hu.glued, hu.isPunct, hu.isPunct]
      split
      · exact ⟨rfl, Nat.zero_le _⟩
      split
      · exact ⟨rfl, Nat.zero_le _⟩
      · exact ⟨by rw [Token.unplacedAll, Token.unplacedAll, hsame, hu], Nat.succ_le_succ hlength⟩
    cases hu.moved with
    | group =>
      simp only [pathTokens, ite_self]
      exact ⟨trivial, Nat.zero_le _⟩
    | ident | literal | punct => exact hword nofun nofun

omit ht in
theorem pathArgument_follows (id : Ident) (pos : Option Position) :
    P.Follows (pathArgument id) (pathArgument { id with pos }) fun a b => b.1 = a.1 := by
  refine .ofRest fun ts us h _ _ => At.argument h fun tok u ts us hts hus hu hrest => ?_
  subst hts hus
  obtain ⟨hsame, hlength⟩ := pathTokens_along true h fun _ => List.cons_ne_nil _ _
  have hbare : P.From (tok :: ts) (u :: us) (do
      let ts := pathTokens true (← rest)
      if ts.isEmpty then unexpected tok (.afterDirective id.name (utf8 "path"))
      skip ts.length
      return (Token.sourceOf ts, tok.pos)) (do
      let ts := pathTokens true (← rest)
      if ts.isEmpty then unexpected u (.afterDirective id.name (utf8 "path"))
      skip ts.length
      return (Token.sourceOf ts, u.pos)) fun a b => b.1 = a.1 := by
    refine .rest ?_
    dsimp only
    rw [Token.isEmpty_congr hsame, Token.length_congr hsame, Token.sourceOf_congr hsame]
    refine .guard (fun hc => hc) fun _ => ?_
    exact .skip hlength (Follows.start (.pure rfl))
  cases hu.moved with
  | ident | punct | group => exact hbare
  | literal l pos =>
    dsimp only
    rw [show Literal.isString { l with pos } = l.isString from rfl]
    split
    · refine .skip (by simp) ?_
      rw [show Literal.value? { l with pos } = l.value? from rfl]
      cases l.value? with
      | none => exact Follows.fail.start
      | some name => exact Follows.start (.pure rfl)
    · exact hbare

theorem readContent_follows (name : Text) (pos pos' : Option Position) :
    P.Follows (readContent t name pos) (readContent t' name pos') fun a b => b = a := by
  refine Follows.get.bind fun s s' hs => ?_
  rw [ht.settings, hs.path]
  have hread := Content.read_congr t.settings.files s.path name pos pos'
  revert hread
  rcases Content.read t.settings.files s.path name pos with ⟨result, tried⟩
  rcases Content.read t.settings.files s.path name pos' with ⟨result', tried'⟩
  intro hread
  obtain ⟨hresult, rfl⟩ := Prod.mk.inj hread
  cases result with
  | error e =>
    refine .never fun _ _ _ hret => ?_
    cases tried with
    | none => exact hret.throw
    | some =>
      obtain ⟨_, _, -, hret⟩ := hret.bind
      exact hret.throw
  | ok found =>
    cases result' with
    | error => cases hresult
    | ok found' =>
      cases hresult
      cases tried with
      | none => exact .pure rfl
      | some => exact (note_follows _ _ _ _).bind fun _ _ _ => .pure rfl

theorem freshContent_follows (name : Text) (pos pos' : Option Position) {convert convert' : Text → Text → ParseM Fragment}
    (hconvert : ∀ data file, P.Follows (convert data file) (convert' data file) SameFragment) :
    P.Follows (freshContent t name pos convert) (freshContent t' name pos' convert') SameFragment := by
  refine (readContent_follows ht name pos pos').next fun found => ?_
  exact hconvert found.1 found.2

omit ht in
theorem cacheKey_follows (kind : ContentKind) (name : Text) : P.Follows (cacheKey? kind name) (cacheKey? kind name)
    fun a b => b.map (fun found => (found.1.shown, found.2)) = a.map fun found => (found.1.shown, found.2) := by
  refine Follows.get.bind fun s s' hs => ?_
  have hcache := hs.cache
  rw [hs.path]
  cases hc : s.world.cache with
  | none =>
    cases hc' : s'.world.cache with
    | none => exact .pure rfl
    | some c' => simp [hc, hc'] at hcache
  | some c =>
    cases hc' : s'.world.cache with
    | none => simp [hc, hc'] at hcache
    | some c' =>
      have hshown : c'.shown = c.shown := by simpa [hc, hc'] using hcache
      dsimp only
      split
      · exact .pure rfl
      · refine .pure ?_
        simp only [Option.map_map, Function.comp_def, hshown]

omit ht in
theorem shown_put (c : Cache) (key : Text) (f : Fragment) (k : Text) :
    (c.put key f).shown k = if k = key then some (placelessAll f.nodes) else c.shown k := by
  rw [Cache.shown, Cache.get?_put]
  split <;> rfl

theorem cachedContent_follows (kind : ContentKind) (name : Text) (pos pos' : Option Position)
    {convert convert' : Text → Text → ParseM Fragment}
    (hconvert : ∀ data file, P.Follows (convert data file) (convert' data file) SameFragment) :
    P.Follows (cachedContent t kind name pos convert) (cachedContent t' kind name pos' convert') SameFragment := by
  have hfresh := freshContent_follows (P := P) ht name pos pos' hconvert
  refine (cacheKey_follows kind name).bind fun a b hab => ?_
  cases a with
  | none =>
    cases b with
    | none => exact hfresh
    | some => cases hab
  | some found =>
    cases b with
    | none => cases hab
    | some found' =>
      obtain ⟨c, key⟩ := found
      obtain ⟨c', key'⟩ := found'
      obtain ⟨hshown, rfl⟩ := Prod.mk.inj (Option.some.inj hab)
      have hkey := congrFun hshown key'
      simp only [Cache.shown] at hkey
      dsimp only
      cases hc : c.get? key' with
      | some f =>
        cases hc' : c'.get? key' with
        | none => simp [hc, hc'] at hkey
        | some f' =>
          refine (note_follows _ _ _ _).bind fun _ _ _ => .pure ?_
          simpa [SameFragment, hc, hc'] using hkey
      | none =>
        cases hc' : c'.get? key' with
        | some f' => simp [hc, hc'] at hkey
        | none =>
          refine (note_follows _ _ _ _).bind fun _ _ _ => hfresh.bind fun f f' hf => ?_
          have hkept : P.Follows
              (modify fun s => { s with world := { s.world with cache := s.world.cache.map (·.put key' f) } })
              (modify fun s => { s with world := { s.world with cache := s.world.cache.map (·.put key' f') } })
              fun _ _ => True := by
            refine .modify fun s s' hs => { hs with budget := hs.budget, cache := ?_ }
            have hcache := hs.cache
            cases hw : s.world.cache with
            | none =>
              cases hw' : s'.world.cache with
              | none => rfl
              | some => simp [hw, hw'] at hcache
            | some c =>
              cases hw' : s'.world.cache with
              | none => simp [hw, hw'] at hcache
              | some c' =>
                have hshown : c'.shown = c.shown := by simpa [hw, hw'] using hcache
                refine congrArg some (funext fun k => ?_)
                rw [shown_put, shown_put, hshown, show placelessAll f'.nodes = placelessAll f.nodes from hf]
          exact hkept.bind fun _ _ _ => .pure hf

theorem markdownText_follows (src : Text) (pos pos' : Option Position) :
    P.Follows (markdownText t src pos) (markdownText t' src pos') fun a b => b = a := by
  unfold markdownText Content.renderMarkdown
  rw [ht.settings]
  cases t.settings.markdown src with
  | ok html => exact .pure rfl
  | error reason => exact .throw

omit ht in
theorem laterContent_follows (name : Text) (pos pos' : Option Position) (markdown : Bool) :
    P.Follows (laterContent name pos markdown) (laterContent name pos' markdown) SameGoing := by
  have hcheck : P.Follows (checkName name pos) (checkName name pos') fun _ _ => True := by
    unfold checkName
    refine .guard (fun hc => hc) fun _ => Follows.get.bind fun s s' hs => ?_
    rw [hs.path]
    exact .guard (fun hc => hc) fun _ => .pure trivial
  refine hcheck.bind fun _ _ _ => Follows.get.bind fun s s' hs => ?_
  rw [hs.path]
  have hlater : P.Follows (emit [.external pos name s.path markdown]) (emit [.external pos' name s.path markdown])
      fun _ _ => True := emit_follows (by simp only [placelessAll, placeless])
  exact hlater.bind fun _ _ _ => .pure ⟨rfl, by simp⟩

omit ht in
theorem emitted_follows {m m' : ParseM Fragment} (h : P.Follows m m' SameFragment) : P.Follows (do
      let fragment ← m
      emit fragment.nodes
      return Atmark.Outcome.next) (do
      let fragment ← m'
      emit fragment.nodes
      return Atmark.Outcome.next) SameGoing :=
  h.bind fun _ _ hf => (emit_follows hf).bind fun _ _ _ => .pure ⟨rfl, by simp⟩

theorem htmlFile_follows (cached : Bool) (id : Ident) (pos : Option Position) :
    P.Follows (htmlFile cached t id) (htmlFile cached t' { id with pos }) SameGoing := by
  refine (pathArgument_follows id pos).bind ?_
  rintro ⟨name, npos⟩ ⟨_, npos'⟩ rfl
  dsimp only
  split
  · exact laterContent_follows _ _ _ _
  · exact emitted_follows (cachedContent_follows ht .html _ _ _ fun _ _ => .pure rfl)

theorem markdownFile_follows (cached : Bool) (id : Ident) (pos : Option Position) :
    P.Follows (markdownFile cached t id) (markdownFile cached t' { id with pos }) SameGoing := by
  refine (pathArgument_follows id pos).bind ?_
  rintro ⟨name, npos⟩ ⟨_, npos'⟩ rfl
  dsimp only
  split
  · exact laterContent_follows _ _ _ _
  · refine emitted_follows (cachedContent_follows ht .markdown _ _ _ fun data _ => ?_)
    exact (markdownText_follows ht data _ _).next fun html => .pure rfl

theorem embedTemplate_follows (pos pos' : Option Position) (src file : Text) :
    P.Follows (embedTemplate t pos src file) (embedTemplate t' pos' src file) SameFragment := by
  refine Follows.get.bind fun s s' hs => ?_
  rw [hs.includers, hs.path]
  refine .guard (fun hc => hc) fun _ => ?_
  exact (note_follows _ _ _ _).bind fun _ _ _ => ht.embed P file src

theorem templateFile_follows (cached : Bool) (id : Ident) (pos : Option Position) :
    P.Follows (templateFile cached t id) (templateFile cached t' { id with pos }) SameGoing := by
  have hwrite (f f' : Fragment) (hf : SameFragment f f') : P.Follows (do
      declare fun d => f.injects.foldl Declarations.addInject (f.imports.foldl Declarations.addImport d)
      emit f.nodes
      return Atmark.Outcome.next) (do
      declare fun d => f'.injects.foldl Declarations.addInject (f'.imports.foldl Declarations.addImport d)
      emit f'.nodes
      return Atmark.Outcome.next) SameGoing := by
    have hdeclare : P.Follows
        (declare fun d => f.injects.foldl Declarations.addInject (f.imports.foldl Declarations.addImport d))
        (declare fun d => f'.injects.foldl Declarations.addInject (f'.imports.foldl Declarations.addImport d))
        fun _ _ => True := declare_follows (Declarations.adds_included _ _) (Declarations.adds_included _ _)
    exact hdeclare.bind fun _ _ _ => (emit_follows hf).bind fun _ _ _ => .pure ⟨rfl, by simp⟩
  refine (pathArgument_follows id pos).bind ?_
  rintro ⟨name, npos⟩ ⟨_, npos'⟩ rfl
  have hembed := embedTemplate_follows (P := P) ht npos npos'
  dsimp only
  split
  · exact (cachedContent_follows ht .template _ _ _ hembed).bind hwrite
  · exact (freshContent_follows ht _ _ _ hembed).bind hwrite

theorem markdown_follows (id : Ident) (pos : Option Position) :
    P.Follows (markdown t id) (markdown t' { id with pos }) SameGoing := by
  have hwrite {tok u : Token} {ts us : List Token} (src : Text) : P.From (tok :: ts) (u :: us) (do
      skip 1
      emitText (← markdownText t src tok.pos) tok.pos
      return Atmark.Outcome.next) (do
      skip 1
      emitText (← markdownText t' src u.pos) u.pos
      return Atmark.Outcome.next) SameGoing := by
    refine .skip (by simp) (Follows.start ?_)
    refine (markdownText_follows ht src _ _).next fun html => ?_
    exact (emitText_follows _ _ _).bind fun _ _ _ => .pure ⟨rfl, by simp⟩
  simp only [markdown, markdownSource, bind_assoc]
  refine .ofRest fun ts us h _ _ => At.argument h fun tok u ts us hts hus hu hrest => ?_
  subst hts hus
  have hwrong {m' : ParseM Atmark.Outcome} {f : Text × Option Position → ParseM Atmark.Outcome} {c : Context} :
      P.From (tok :: ts) (u :: us) ((unexpected tok c : ParseM (Text × Option Position)) >>= f) m' SameGoing := by
    refine .never fun _ _ _ _ hret => ?_
    obtain ⟨_, _, hret, -⟩ := hret.bind
    exact hret.unexpected
  cases hu.moved with
  | ident | punct => exact hwrong
  | literal l pos =>
    dsimp only
    rw [show Literal.isString { l with pos } = l.isString from rfl]
    split
    · exact hwrong
    · rw [show Literal.value? { l with pos } = l.value? from rfl]
      cases l.value? with
      | some src => exact hwrite src
      | none =>
        refine .never fun _ _ _ _ hret => ?_
        obtain ⟨_, _, hret, -⟩ := hret.bind
        exact hret.fail
  | group f pos hds =>
    dsimp only
    rw [Token.sourceWithSpace_congr hds]
    split
    · exact hwrite _
    · exact hwrong

end Uses

end Seam

/-! ## The standard registry -/

theorem Directive.builtin_moves {d : Directive} (hd : d ∈ builtinDirectives) : d.Moves := by
  intro P loop t t' ht id pos hid hpos
  simp only [builtinDirectives, List.mem_cons, List.not_mem_nil, or_false] at hd
  rcases hd with rfl | rfl | rfl | rfl | rfl | rfl | rfl | rfl | rfl | rfl | rfl | rfl | rfl | rfl |
    rfl | rfl | rfl | rfl | rfl | rfl | rfl | rfl | rfl
  · exact Seam.model_follows id pos
  · exact Seam.viewName_follows hid hpos
  · exact Seam.parameter_follows id pos
  · exact Seam.parameter_follows id pos
  · exact Seam.use_follows id pos
  · exact Seam.inject_follows id pos
  · exact Seam.codeSection_follows id pos
  · exact Seam.codeSection_follows id pos
  · exact Seam.codeSection_follows id pos
  · exact Seam.forLoop_follows ht id pos
  · exact Seam.whileLoop_follows ht id pos
  · exact Seam.condition_follows ht id pos
  · exact .fail
  · exact Seam.defineSection_follows ht id pos
  · exact Seam.renderSection_follows ht id pos
  · exact Seam.renderBody_follows id pos
  · exact Seam.htmlFile_follows ht true id pos
  · exact Seam.htmlFile_follows ht false id pos
  · exact Seam.templateFile_follows ht true id pos
  · exact Seam.templateFile_follows ht false id pos
  · exact Seam.markdown_follows ht id pos
  · exact Seam.markdownFile_follows ht true id pos
  · exact Seam.markdownFile_follows ht false id pos

namespace Environment
open Seam
variable {c c' : ElementContext}

theorem attribute?_same (h : SameElement c c') (name : Text) :
    (c'.attribute? name).map Attribute.placeless = (c.attribute? name).map Attribute.placeless := by
  have hfind (as : List Attribute) : (as.find? (Text.sameFold ·.name name)).map Attribute.placeless =
      (as.map Attribute.placeless).find? (Text.sameFold ·.name name) := by
    rw [List.find?_map]
    rfl
  rw [ElementContext.attribute?, ElementContext.attribute?, hfind, hfind, h.attributes]

theorem listed?_same (h : SameElement c c') (attr : String) {names : Option (List Text)}
    (hc : listed? c attr = .ok names) : listed? c' attr = .ok names := by
  have hattribute := attribute?_same h (utf8 attr)
  unfold listed? at hc ⊢
  cases ha : c.attribute? (utf8 attr) with
  | none =>
    rw [ha] at hattribute hc
    rw [Option.map_eq_none_iff.mp hattribute]
    exact hc
  | some a =>
    rw [ha] at hattribute hc
    obtain ⟨a', ha', hsame⟩ := Option.map_eq_some_iff.mp hattribute
    rw [ha']
    obtain ⟨name, value⟩ := a
    obtain ⟨name', value'⟩ := a'
    obtain ⟨-, hvalue⟩ := Attribute.mk.inj hsame
    cases value with
    | none => cases hc
    | some v =>
      cases value' with
      | none => cases hvalue
      | some v' =>
        have hstatic : v'.static? = v.static? := by
          rw [← AttrValue.static?_placeless, Option.some.inj hvalue, AttrValue.static?_placeless]
        dsimp only at hc ⊢
        rw [hstatic]
        cases hs : v.static? with
        | none =>
          rw [hs] at hc
          cases hc
        | some text =>
          rw [hs] at hc
          exact hc

theorem run_same (h : SameElement c c') {nodes : Option (List Node)} (hc : run c = .ok nodes) :
    ∃ ns ns', nodes = some ns ∧ run c' = .ok (some ns') ∧ SameNodes ns ns' := by
  unfold run at hc ⊢
  cases hi : listed? c "include" with
  | error e =>
    simp only [hi, Bind.bind, Except.bind] at hc
    cases hc
  | ok includes =>
    cases he : listed? c "exclude" with
    | error e =>
      simp only [hi, he, Bind.bind, Except.bind] at hc
      cases hc
    | ok excludes =>
      simp only [hi, he, listed?_same h _ hi, listed?_same h _ he, Bind.bind, Except.bind] at hc ⊢
      split at hc
      · cases hc
      · rename_i hnames
        rw [if_neg hnames, h.environment]
        cases hc
        refine ⟨_, _, rfl, rfl, ?_⟩
        split
        · exact h.children
        · rfl

end Environment

namespace Registry
open Seam

theorem default_sameTag {c c' : TagContext} (h : SameTag c c') : SameNodes c.default c'.default := by
  have hclose (close : Option Node) : placelessAll close.toList = (close.map placeless).toList := by
    cases close <;> rfl
  rw [SameNodes, TagContext.default, TagContext.default, placelessAll_append, placelessAll_append, hclose, hclose,
    h.close, show placelessAll c'.nodes = placelessAll c.nodes from h.nodes]

theorem default_sameElement {c c' : ElementContext} (h : SameElement c c') : SameNodes c.default c'.default := by
  have hstart := h.start
  have hchildren := h.children
  have hstop := h.stop
  rw [SameNodes] at hstart hchildren hstop ⊢
  simp only [ElementContext.default, placelessAll_append, hstart, hchildren, hstop]

/-- The standard registry does the same somewhere else. -/
theorem standard_moves : standard.Moves where
  directives := fun _ hd => Directive.builtin_moves hd
  tagNodes := fun _ _ _ h => .pure (default_sameTag h)
  elementNodes := by
    intro P c c' h
    have hhooks (c : ElementContext) : standard.elementHooks.filter (·.accepts c.name) =
        if Text.sameFold c.name (utf8 "environment") then [Environment.hook] else [] :=
      List.filter_singleton.trans (Bool.cond_eq_ite _ _ _)
    unfold elementNodes
    rw [hhooks, hhooks, h.name]
    by_cases hname : Text.sameFold c.name (utf8 "environment") = true
    · rw [if_pos hname]
      dsimp only
      cases hrun : Environment.hook.run c with
      | error e => exact .throw
      | ok nodes =>
        obtain ⟨ns, ns', rfl, hrun', hns⟩ := Environment.run_same h hrun
        rw [show Environment.hook.run c' = .ok (some ns') from hrun']
        exact (note_follows _ _ _ _).bind fun _ _ _ => .pure hns
    · rw [if_neg hname]
      exact .pure (default_sameElement h)

end Registry

end Atmark
