import Atmark.Proofs.Directive.Contract
import Atmark.Proofs.Parse.Closed

/-! The directives of the language are made of the same steps as the parser, so they have every property
that holds of these (`ParseM.Closed`); and the standard registry keeps it (`Registry.standard_keeps`). -/
namespace Atmark
open Node ParseM

/-! ## Errors that are found without running steps -/

theorem Directive.isStop_forClause {header : List Token} {e : Error} (h : forClause header = .error e) :
    e.isStop = false := by
  unfold forClause at h
  split at h
  · cases h
  · simp only [bind, Except.bind] at h
    split at h
    · rename_i hvars
      cases h
      unfold pattern at hvars
      repeat' split at hvars
      all_goals
        cases hvars
        try rfl
    · unfold patternClause at h
      dsimp only at h
      repeat' split at h
      all_goals
        cases h
        try rfl

theorem Content.isStop_read {files : Option Files} {file name : Text} {pos : Option Position} {e : Error}
    (h : (read files file name pos).1 = .error e) : e.isStop = false := by
  rcases read_error h with ⟨_, rfl, -⟩ | ⟨_, _, _, rfl⟩ <;> rfl

namespace Environment

theorem isStop_listed? {c : ElementContext} {attr : String} {e : Error} (h : listed? c attr = .error e) :
    e.isStop = false := by
  unfold listed? at h
  repeat' split at h
  all_goals
    cases h
    try rfl

theorem isStop_run {c : ElementContext} {e : Error} (h : run c = .error e) : e.isStop = false := by
  unfold run at h
  cases hi : listed? c "include" with
  | error e' =>
    rw [hi] at h
    cases h
    exact isStop_listed? hi
  | ok includes =>
    cases he : listed? c "exclude" with
    | error e' =>
      rw [hi, he] at h
      cases h
      exact isStop_listed? he
    | ok excludes =>
      rw [hi, he] at h
      simp only [bind, Except.bind] at h
      split at h
      · cases h
        rfl
      · cases h

end Environment

namespace ParseM.Closed
open Directive
variable {P : {α : Type} → ParseM α → Prop} (hP : Closed P)
include hP

/-! ## Types and declarations -/

theorem typePath {arguments : Option Position → ParseM (List Token)} (ha : ∀ pos, P (arguments pos))
    (ts : List Token) : P (ParseM.typePath arguments ts) := by
  have hnone : P (Pure.pure [] : ParseM (List Token)) := hP.pure _
  fun_induction ParseM.typePath arguments ts with
  | case1 => exact hnone
  | case2 => exact hnone
  | case3 tok ts _ ihPath ihDot =>
    have hsegment (pos : Option Position) (n : Ident) (k : Nat) {us : List Token}
        (ih : P (ParseM.typePath arguments us)) : P (do
          ParseM.skip k
          return Token.mark pos '.' :: .word n.pos n.name :: (← ParseM.typePath arguments us)) :=
      hP.bind (hP.skip _) fun _ => hP.bind ih fun _ => hP.pure _
    refine hP.bind (hP.setLast _) fun _ => ?_
    split
    · refine hP.guard ?_
      split
      · split
        · exact hsegment _ _ _ ihPath
        · exact hP.fail _ _
      · exact hP.fail _ _
    split
    · split
      · split
        · exact hsegment _ _ _ ihDot
        · exact hnone
      · exact hnone
    split
    · exact hP.bind (hP.skip _) fun _ => hP.bind (ha _) fun _ => hP.pure _
    · exact hnone

theorem typeFrom {arguments : Option Position → ParseM (List Token)} (ha : ∀ pos, P (arguments pos))
    (ts : List Token) : P (ParseM.typeFrom arguments ts) := by
  induction ts with
  | nil => exact hP.look (fun _ _ => rfl) fun _ => hP.fail _ _
  | cons tok ts ih =>
    unfold ParseM.typeFrom
    split
    · refine hP.bind (hP.skip _) fun _ => ?_
      split
      · exact hP.bind ih fun _ => hP.pure _
      · exact hP.fail _ _
    · split
      · exact hP.bind (hP.skip _) fun _ => hP.bind (hP.typePath ha ts) fun _ => hP.pure _
      · exact hP.unexpected _ _

mutual

theorem typeWithin (n : Nat) : P (ParseM.typeWithin n) := by
  match n with
  | 0 => exact hP.throw rfl
  | n + 1 =>
    refine hP.bind hP.checkStop fun _ => ?_
    exact hP.bind hP.rest fun ts => typeFrom hP (typeArguments n) ts

theorem typeArguments (n : Nat) (pos : Option Position) : P (ParseM.typeArguments n pos) := by
  match n with
  | 0 => exact hP.throw rfl
  | n + 1 =>
    refine hP.bind (typeWithin n) fun arg => ?_
    refine hP.bind hP.peek fun next => ?_
    split
    · exact hP.fail _ _
    · refine hP.bind (hP.skip _) fun _ => ?_
      split
      · exact hP.pure _
      split
      · exact hP.bind (typeArguments n pos) fun _ => hP.pure _
      · exact hP.unexpected _ _

end

theorem declarable (id : Ident) : P (declarable id) :=
  hP.look (fun _ _ => rfl) fun _ => by
    split
    · exact hP.fail _ _
    · exact hP.pure _

theorem argument (id : Ident) (expecting : String) : P (argument id expecting) := by
  refine hP.bind hP.peek fun next => ?_
  split
  · exact hP.fail _ _
  · exact hP.guard (hP.bind (hP.setLast _) fun _ => hP.pure _)

theorem stringArgument (id : Ident) : P (stringArgument id) := by
  refine hP.bind (hP.argument id _) fun tok => ?_
  split
  · refine hP.guard ?_
    refine hP.bind (hP.skip _) fun _ => ?_
    split
    · exact hP.pure _
    · exact hP.fail _ _
  · exact hP.unexpected _ _

/-- A directive that declares something ends so. -/
theorem declared (f : Declarations → Declarations) : P (do
    ParseM.declare f
    ParseM.trimLine
    return Atmark.Outcome.next) :=
  hP.bind (hP.declare f) fun _ => hP.bind hP.trimLine fun _ => hP.pure _

theorem model (id : Ident) : P (model id) := by
  refine hP.bind hP.peek fun next => ?_
  dsimp only
  split
  · exact hP.pure _
  · refine hP.bind (hP.declarable id) fun _ => ?_
    refine hP.look (fun _ _ => rfl) fun s => ?_
    refine hP.guard ?_
    refine hP.bind (hP.argument id _) fun _ => ?_
    refine hP.bind ?_ fun type => hP.declared _
    exact hP.bind hP.rest fun ts => hP.typeWithin _

theorem viewName (id : Ident) : P (viewName id) := by
  refine hP.bind (hP.declarable id) fun _ => ?_
  refine hP.look (fun _ _ => rfl) fun s => ?_
  refine hP.guard ?_
  exact hP.bind (hP.stringArgument id) fun value => hP.guard (hP.declared _)

theorem parameter (id : Ident) : P (parameter id) := by
  refine hP.bind (hP.declarable id) fun _ => ?_
  refine hP.look (fun _ _ => rfl) fun s => ?_
  split
  · exact hP.fail _ _
  · exact hP.bind (hP.stringArgument id) fun _ => hP.declared _

theorem importName : P importName := by
  refine hP.bind hP.peek fun next => ?_
  split
  · exact hP.bind (hP.skip _) fun _ => hP.pure _
  · split
    · exact hP.bind (hP.skip _) fun _ => hP.pure _
    · exact hP.pure _
  · exact hP.pure _

theorem use (id : Ident) : P (use id) := by
  refine hP.bind (hP.argument id _) fun _ => ?_
  refine hP.bind hP.importName fun name => ?_
  refine hP.bind hP.peek fun next => ?_
  split
  · exact hP.fail _ _
  · refine hP.bind (hP.skip _) fun _ => ?_
    split
    · refine hP.guard ?_
      split
      · exact hP.fail _ _
      · have hadd (i : Import) : P (do
            if (← ParseM.peek).any fun t => t.isPunct ';' && !Text.breaksLine t.space then ParseM.skip 1
            ParseM.declare (·.addImport i)
            ParseM.trimLine
            return Atmark.Outcome.next) := by
          refine hP.bind hP.peek fun next => ?_
          split
          · exact hP.bind (hP.skip _) fun _ => hP.declared _
          · exact hP.declared _
        dsimp only
        split
        · exact hP.bind (hP.fail _ _) fun _ => hadd _
        · exact hadd _
    · exact hP.unexpected _ _

theorem inject (id : Ident) : P (inject id) := by
  refine hP.bind (hP.argument id _) fun _ => ?_
  refine hP.bind hP.rest fun ts => ?_
  refine hP.bind (hP.skip _) fun _ => ?_
  exact hP.guard (hP.declared _)

theorem codeSection (id : Ident) : P (codeSection id) := by
  refine hP.bind (hP.declarable id) fun _ => ?_
  refine hP.bind (hP.argument id _) fun tok => ?_
  refine hP.look (fun _ _ => rfl) fun s => ?_
  split
  · exact hP.unexpected _ _
  · exact hP.bind (hP.skip _) fun _ => hP.declared _

/-! ## Loops, conditions and sections -/

variable {t : Tools} (ht : t.Keeps P)

section
include ht

theorem block (f : Frame) (ts : List Token) : P (block t f ts) :=
  hP.bind (hP.region ht f ts _) fun _ => hP.pure _

theorem forLoop (id : Ident) : P (forLoop t id) := by
  refine hP.bind hP.rest fun ts => ?_
  refine hP.bind (hP.untilBrace _ _ _) fun ⟨header, f, cs⟩ => ?_
  dsimp only
  split
  · rename_i e he
    exact hP.throw (isStop_forClause he)
  · refine hP.bind (hP.block ht f cs) fun body => ?_
    refine hP.bind (hP.emit _) fun _ => ?_
    refine hP.bind (hP.emit _) fun _ => ?_
    exact hP.bind (hP.emit _) fun _ => hP.pure _

theorem whileLoop (id : Ident) : P (whileLoop t id) := by
  refine hP.bind hP.rest fun ts => ?_
  refine hP.bind (hP.untilBrace _ _ _) fun ⟨header, f, cs⟩ => ?_
  refine hP.guard ?_
  refine hP.bind (hP.block ht f cs) fun body => ?_
  refine hP.bind (hP.emit _) fun _ => ?_
  refine hP.bind (hP.emit _) fun _ => ?_
  exact hP.bind (hP.emit _) fun _ => hP.pure _

theorem branch (id : Ident) : P (branch t id) := by
  refine hP.bind hP.rest fun ts => ?_
  refine hP.bind (hP.untilBrace _ _ _) fun ⟨header, f, cs⟩ => ?_
  refine hP.guard ?_
  refine hP.bind (hP.block ht f cs) fun body => ?_
  exact hP.bind (hP.emit _) fun _ => hP.emit _

theorem elseBranches (n : Nat) : P (elseBranches t n) := by
  induction n with
  | zero => exact hP.throw rfl
  | succ n ih =>
    refine hP.bind hP.rest fun ts => ?_
    split
    · exact hP.pure _
    · split
      · split
        · refine hP.bind (hP.skip _) fun _ => ?_
          refine hP.bind (hP.emit _) fun _ => ?_
          exact hP.bind (hP.branch ht _) fun _ => ih
        · exact hP.pure _
      · split
        · refine hP.bind (hP.skip _) fun _ => ?_
          exact hP.bind (hP.block ht _ _) fun body => hP.emit _
        · exact hP.pure _
      · exact hP.pure _

theorem condition (id : Ident) : P (condition t id) := by
  refine hP.bind (hP.emit _) fun _ => ?_
  refine hP.bind (hP.branch ht id) fun _ => ?_
  refine hP.bind hP.rest fun ts => ?_
  exact hP.bind (hP.elseBranches ht _) fun _ => hP.pure _

theorem defineSection (id : Ident) : P (defineSection t id) := by
  refine hP.bind (hP.argument id _) fun tok => ?_
  split
  · exact hP.unexpected _ _
  · refine hP.bind (hP.skip _) fun _ => ?_
    refine hP.look (fun _ _ => rfl) fun s => ?_
    split
    · exact hP.fail _ _
    · refine hP.bind (hP.skip _) fun _ => ?_
      refine hP.bind (hP.region ht _ _ _) fun nodes => ?_
      refine hP.bind (hP.emit _) fun _ => ?_
      exact hP.bind hP.trimLine fun _ => hP.pure _

end

theorem callArguments : P callArguments? := hP.look (fun _ _ => rfl) fun _ => hP.pure _

include ht in
theorem renderSection (id : Ident) : P (renderSection t id) := by
  refine hP.bind hP.callArguments fun args => ?_
  split
  · exact hP.fail _ _
  · refine hP.bind (hP.skip _) fun _ => ?_
    refine hP.bind (hP.region ht _ _ _) fun nodes => ?_
    exact hP.guard (hP.bind (hP.emit _) fun _ => hP.pure _)

theorem renderBody (id : Ident) : P (renderBody id) := by
  have hcall (f : Frame) : P (do
      ParseM.emit [contextCall id "RenderBody" f []]
      return Atmark.Outcome.next) := hP.bind (hP.emit _) fun _ => hP.pure _
  refine hP.bind hP.callArguments fun args => ?_
  dsimp only
  split
  · refine hP.bind (hP.skip _) fun _ => ?_
    exact hP.guard (hcall _)
  · exact hcall _

/-! ## Contents of other files -/

theorem pathArgument (id : Ident) : P (pathArgument id) := by
  refine hP.bind (hP.argument id _) fun tok => ?_
  have hbare : P (do
      let ts := pathTokens true (← ParseM.rest)
      if ts.isEmpty then ParseM.unexpected tok (.afterDirective id.name (utf8 "path"))
      ParseM.skip ts.length
      return (Token.sourceOf ts, tok.pos)) := by
    refine hP.bind hP.rest fun ts => ?_
    exact hP.guard (hP.bind (hP.skip _) fun _ => hP.pure _)
  dsimp only
  split
  · split
    · refine hP.bind (hP.skip _) fun _ => ?_
      split
      · exact hP.pure _
      · exact hP.fail _ _
    · exact hbare
  · exact hbare

theorem readContent (t : Tools) (name : Text) (pos : Option Position) : P (readContent t name pos) := by
  refine hP.look (fun _ _ => rfl) fun s => ?_
  have hnote {m : ParseM (Text × Text)} (hm : P m) (message : String)
      (fields : List (String × Text)) : P (do ParseM.note message fields; m) :=
    hP.bind (hP.note message fields) fun _ => hm
  dsimp only
  cases hread : (Content.read t.settings.files s.path name pos).1 with
  | ok found => split <;> first | exact hnote (hP.pure _) _ _ | exact hP.pure _
  | error e =>
    have hthrow : P (MonadExcept.throw e : ParseM (Text × Text)) := hP.throw (Content.isStop_read hread)
    split <;> first | exact hnote hthrow _ _ | exact hthrow

theorem freshContent (t : Tools) (name : Text) (pos : Option Position)
    {convert : Text → Text → ParseM Fragment} (h : ∀ data file, P (convert data file)) :
    P (freshContent t name pos convert) :=
  hP.bind (hP.readContent t name pos) fun _ => h _ _

/-- A content is looked for in the cache, and kept there if it was not found. -/
theorem cachedContent (t : Tools) (kind : ContentKind) (name : Text) (pos : Option Position)
    {convert : Text → Text → ParseM Fragment} (h : ∀ data file, P (convert data file)) :
    P (cachedContent t kind name pos convert) := by
  have hkey : P (cacheKey? kind name) := by
    refine hP.look (fun _ _ => rfl) fun s => ?_
    split
    · exact hP.pure _
    · split
      · exact hP.pure _
      · exact hP.pure _
  refine hP.bind hkey fun found => ?_
  split
  · exact hP.freshContent t name pos h
  · split
    · exact hP.bind (hP.note _ _) fun _ => hP.pure _
    · refine hP.bind (hP.note _ _) fun _ => ?_
      refine hP.bind (hP.freshContent t name pos h) fun fragment => ?_
      exact hP.bind (hP.keep _ fragment) fun _ => hP.pure _

theorem laterContent (name : Text) (pos : Option Position) (markdown : Bool) :
    P (laterContent name pos markdown) := by
  have hcheck : P (checkName name pos) := by
    unfold checkName
    refine hP.guard ?_
    refine hP.look (fun _ _ => rfl) fun s => ?_
    split
    · exact hP.fail _ _
    · exact hP.pure _
  refine hP.bind hcheck fun _ => ?_
  refine hP.look (fun _ _ => rfl) fun s => ?_
  exact hP.bind (hP.emit _) fun _ => hP.pure _

theorem markdownText (t : Tools) (src : Text) (pos : Option Position) : P (markdownText t src pos) := by
  unfold Directive.markdownText Content.renderMarkdown
  cases t.settings.markdown src with
  | ok html => exact hP.pure _
  | error reason => exact hP.throw rfl

/-- The nodes of a content are written. -/
theorem emitted {m : ParseM Fragment} (h : P m) : P (do
    let fragment ← m
    ParseM.emit fragment.nodes
    return Atmark.Outcome.next) :=
  hP.bind h fun _ => hP.bind (hP.emit _) fun _ => hP.pure _

theorem htmlFile (cached : Bool) (t : Tools) (id : Ident) : P (htmlFile cached t id) := by
  refine hP.bind (hP.pathArgument id) fun a => ?_
  cases cached with
  | false => exact hP.laterContent _ _ _
  | true => exact hP.emitted (hP.cachedContent t _ _ _ fun _ _ => hP.pure _)

theorem markdownFile (cached : Bool) (t : Tools) (id : Ident) : P (markdownFile cached t id) := by
  refine hP.bind (hP.pathArgument id) fun a => ?_
  cases cached with
  | false => exact hP.laterContent _ _ _
  | true =>
    refine hP.emitted (hP.cachedContent t _ _ _ fun data _ => ?_)
    exact hP.bind (hP.markdownText t data _) fun _ => hP.pure _

theorem markdown (t : Tools) (id : Ident) : P (markdown t id) := by
  have hsource : P (markdownSource id) := by
    refine hP.bind (hP.argument id _) fun tok => ?_
    dsimp only
    split
    · split
      · exact hP.unexpected _ _
      · split
        · exact hP.pure _
        · exact hP.fail _ _
    · split
      · exact hP.pure _
      · exact hP.unexpected _ _
    · exact hP.unexpected _ _
  refine hP.bind hsource fun source => ?_
  refine hP.bind (hP.skip _) fun _ => ?_
  refine hP.bind (hP.markdownText t source.1 source.2) fun _ => ?_
  exact hP.bind (hP.emitText _ _) fun _ => hP.pure _

include ht in
theorem embedTemplate (pos : Option Position) (src file : Text) : P (embedTemplate t pos src file) := by
  refine hP.look (fun _ _ => rfl) fun s => ?_
  refine hP.guard ?_
  exact hP.bind (hP.note _ _) fun _ => ht.embed _ _

include ht in
theorem templateFile (cached : Bool) (id : Ident) : P (templateFile cached t id) := by
  have hwrite (f : Fragment) : P (do
      ParseM.declare fun d => f.injects.foldl Declarations.addInject
        (f.imports.foldl Declarations.addImport d)
      ParseM.emit f.nodes
      return Atmark.Outcome.next) :=
    hP.bind (hP.declare _) fun _ => hP.bind (hP.emit _) fun _ => hP.pure _
  refine hP.bind (hP.pathArgument id) fun a => ?_
  cases cached with
  | false => exact hP.bind (hP.freshContent t _ _ (hP.embedTemplate ht _)) hwrite
  | true => exact hP.bind (hP.cachedContent t _ _ _ (hP.embedTemplate ht _)) hwrite

end ParseM.Closed

/-! ## The standard registry -/

theorem Registry.standard_keeps {P : {α : Type} → ParseM α → Prop} (hP : Closed P) :
    standard.Keeps P where
  directives := by
    intro d hd t id ht
    simp only [standard, builtinDirectives, List.mem_cons, List.not_mem_nil, or_false] at hd
    rcases hd with rfl | rfl | rfl | rfl | rfl | rfl | rfl | rfl | rfl | rfl | rfl | rfl | rfl | rfl |
      rfl | rfl | rfl | rfl | rfl | rfl | rfl | rfl | rfl
    · exact hP.model id
    · exact hP.viewName id
    · exact hP.parameter id
    · exact hP.parameter id
    · exact hP.use id
    · exact hP.inject id
    · exact hP.codeSection id
    · exact hP.codeSection id
    · exact hP.codeSection id
    · exact hP.forLoop ht id
    · exact hP.whileLoop ht id
    · exact hP.condition ht id
    · exact hP.fail _ _
    · exact hP.defineSection ht id
    · exact hP.renderSection ht id
    · exact hP.renderBody id
    · exact hP.htmlFile true t id
    · exact hP.htmlFile false t id
    · exact hP.templateFile ht true id
    · exact hP.templateFile ht false id
    · exact hP.markdown t id
    · exact hP.markdownFile true t id
    · exact hP.markdownFile false t id
  tagHooks := by simp [standard]
  elementHooks := by
    intro h hh c e he
    cases List.mem_singleton.mp hh
    exact Environment.isStop_run he

end Atmark
