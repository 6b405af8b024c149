import Atmark.Directive.Builtin
import Atmark.Proofs.Parse.Lockstep

/-! The directives of the language keep step. Most of them read tokens and add nodes; those that include
another file do it through the tools, and the path they name is written in the file (`pathArgument_outcome`).
So the standard registry does not look at where contents were found (`standard_blind`). -/
namespace Atmark
open Node ParseM

namespace Pairing
open Directive
variable {P : Pairing}

/-! ## Types and declarations -/

theorem typePath_lockstep {arguments : Option Position → ParseM (List Token)}
    (ha : ∀ pos, P.Lockstep (arguments pos) (arguments pos) Eq) (ts : List Token) :
    P.Lockstep (typePath arguments ts) (typePath arguments ts) Eq := by
  have hnone : P.Lockstep (pure []) (pure []) (@Eq (List Token)) := .pure rfl
  fun_induction typePath arguments ts with
  | case1 => exact hnone
  | case2 => exact hnone
  | case3 tok ts _ ihPath ihDot =>
    have hsegment (pos : Option Position) (n : Ident) (k : Nat) {us : List Token}
        (ih : P.Lockstep (typePath arguments us) (typePath arguments us) Eq) :
        P.Lockstep (do
          skip k
          return .mark pos '.' :: .word n.pos n.name :: (← typePath arguments us)) (do
          skip k
          return .mark pos '.' :: .word n.pos n.name :: (← typePath arguments us)) Eq :=
      (skip_lockstep _).next fun _ => ih.next fun _ => .pure rfl
    refine (setLast_lockstep _).next fun _ => ?_
    split
    · refine .guard fun _ => ?_
      split
      · split
        · exact hsegment _ _ _ ihPath
        · exact .fail _ _
      · exact .fail _ _
    split
    · split
      · split
        · exact hsegment _ _ _ ihDot
        · exact hnone
      · exact hnone
    split
    · exact (skip_lockstep _).next fun _ => (ha _).next fun _ => .pure rfl
    · exact hnone

theorem typeFrom_lockstep {arguments : Option Position → ParseM (List Token)}
    (ha : ∀ pos, P.Lockstep (arguments pos) (arguments pos) Eq) (ts : List Token) :
    P.Lockstep (typeFrom arguments ts) (typeFrom arguments ts) Eq := by
  induction ts with
  | nil =>
    refine Lockstep.get.bind fun s s' hs => ?_
    rw [hs.stream]
    exact .fail _ _
  | cons tok ts ih =>
    unfold typeFrom
    split
    · refine (skip_lockstep _).next fun _ => ?_
      split
      · exact ih.next fun _ => .pure rfl
      · exact .fail _ _
    · split
      · refine (skip_lockstep _).next fun _ => ?_
        exact (typePath_lockstep ha ts).next fun _ => .pure rfl
      · exact .unexpected _ _

mutual

theorem typeWithin_lockstep (n : Nat) : P.Lockstep (typeWithin n) (typeWithin n) Eq := by
  match n with
  | 0 => exact .throw _
  | n + 1 =>
    refine checkStop_lockstep.next fun _ => ?_
    refine rest_lockstep.bind ?_
    rintro ts _ ⟨rfl, -⟩
    exact typeFrom_lockstep (typeArguments_lockstep n) ts

theorem typeArguments_lockstep (n : Nat) (pos : Option Position) :
    P.Lockstep (typeArguments n pos) (typeArguments n pos) Eq := by
  match n with
  | 0 => exact .throw _
  | n + 1 =>
    refine (typeWithin_lockstep n).next fun arg => ?_
    refine peek_lockstep.next fun next => ?_
    split
    · exact .fail _ _
    · refine (skip_lockstep _).next fun _ => ?_
      split
      · exact .pure rfl
      split
      · exact (typeArguments_lockstep n pos).next fun _ => .pure rfl
      · exact .unexpected _ _

end

theorem typeName_lockstep : P.Lockstep typeName typeName Eq := by
  refine rest_lockstep.bind ?_
  rintro ts _ ⟨rfl, -⟩
  exact typeWithin_lockstep _

/-- Where one run refuses a declaration because the file is included, so does the other, or the first one
is lost. -/
theorem declarable_lockstep (id : Ident) : P.Lockstep (declarable id) (declarable id) Eq := by
  refine Lockstep.get.bind fun s s' hs => ?_
  rw [hs.includers.1, hs.includers.2]
  rcases P.included with h | ⟨hleft, hlost⟩
  · have hempty : P.right.isEmpty = P.left.isEmpty := by
      rw [Bool.eq_iff_iff, List.isEmpty_iff, List.isEmpty_iff, h]
    rw [hempty]
    split
    · exact .fail _ _
    · exact .pure rfl
  · have hrefused : (!P.left.isEmpty) = true := by simpa using hleft
    rw [if_pos hrefused]
    exact fun _ _ _ => .lost (hlost _)

theorem argument_lockstep (id : Ident) (expecting : String) :
    P.Lockstep (argument id expecting) (argument id expecting) Eq := by
  refine peek_lockstep.next fun next => ?_
  split
  · exact .fail _ _
  · refine .guard fun _ => ?_
    exact (setLast_lockstep _).next fun _ => .pure rfl

theorem stringArgument_lockstep (id : Ident) :
    P.Lockstep (stringArgument id) (stringArgument id) Eq := by
  refine (argument_lockstep id _).next fun tok => ?_
  split
  · refine .guard fun _ => ?_
    refine (skip_lockstep _).next fun _ => ?_
    split
    · exact .pure rfl
    · exact .fail _ _
  · exact .unexpected _ _

theorem declared_lockstep (f : Declarations → Declarations) :
    P.Lockstep (do
      declare f
      trimLine
      return Atmark.Outcome.next) (do
      declare f
      trimLine
      return Atmark.Outcome.next) Eq :=
  (declare_lockstep f).next fun _ => trimLine_lockstep.next fun _ => .pure rfl

theorem model_lockstep (id : Ident) : P.Lockstep (model id) (model id) Eq := by
  refine peek_lockstep.next fun next => ?_
  dsimp only
  split
  · exact .pure rfl
  · refine (declarable_lockstep id).next fun _ => ?_
    refine Lockstep.get.bind fun s s' hs => ?_
    rw [hs.declared]
    refine .guard fun _ => ?_
    refine (argument_lockstep id _).next fun _ => ?_
    exact typeName_lockstep.next fun _ => declared_lockstep _

theorem viewName_lockstep (id : Ident) : P.Lockstep (viewName id) (viewName id) Eq := by
  refine (declarable_lockstep id).next fun _ => ?_
  refine Lockstep.get.bind fun s s' hs => ?_
  rw [hs.declared]
  refine .guard fun _ => ?_
  refine (stringArgument_lockstep id).next fun value => ?_
  exact .guard fun _ => declared_lockstep _

theorem parameter_lockstep (id : Ident) : P.Lockstep (parameter id) (parameter id) Eq := by
  refine (declarable_lockstep id).next fun _ => ?_
  refine Lockstep.get.bind fun s s' hs => ?_
  rw [hs.declared]
  split
  · exact .fail _ _
  · exact (stringArgument_lockstep id).next fun _ => declared_lockstep _

theorem importName_lockstep : P.Lockstep importName importName Eq := by
  refine peek_lockstep.next fun next => ?_
  split
  · exact (skip_lockstep _).next fun _ => .pure rfl
  · split
    · exact (skip_lockstep _).next fun _ => .pure rfl
    · exact .pure rfl
  · exact .pure rfl

theorem use_lockstep (id : Ident) : P.Lockstep (use id) (use id) Eq := by
  refine (argument_lockstep id _).next fun _ => ?_
  refine importName_lockstep.next fun name => ?_
  refine peek_lockstep.next fun next => ?_
  split
  · exact .fail _ _
  · refine (skip_lockstep _).next fun _ => ?_
    split
    · refine .guard fun _ => ?_
      split
      · exact .fail _ _
      · rename_i path _
        have hadd : P.Lockstep (do
            if (← peek).any fun t => t.isPunct ';' && !Text.breaksLine t.space then skip 1
            declare (·.addImport ⟨name, path⟩)
            trimLine
            return Atmark.Outcome.next) (do
            if (← peek).any fun t => t.isPunct ';' && !Text.breaksLine t.space then skip 1
            declare (·.addImport ⟨name, path⟩)
            trimLine
            return Atmark.Outcome.next) Eq := by
          refine peek_lockstep.next fun next => ?_
          split
          · exact (skip_lockstep _).next fun _ => declared_lockstep _
          · exact declared_lockstep _
        dsimp only
        split
        · exact (Lockstep.fail (R := fun _ _ => False) _ _).bind fun _ _ h => h.elim
        · exact hadd
    · exact .unexpected _ _

theorem inject_lockstep (id : Ident) : P.Lockstep (inject id) (inject id) Eq := by
  refine (argument_lockstep id _).next fun _ => ?_
  refine rest_lockstep.bind ?_
  rintro ts _ ⟨rfl, -⟩
  dsimp only
  refine (skip_lockstep _).next fun _ => ?_
  exact .guard fun _ => declared_lockstep _

theorem codeSection_lockstep (id : Ident) : P.Lockstep (codeSection id) (codeSection id) Eq := by
  refine (declarable_lockstep id).next fun _ => ?_
  refine (argument_lockstep id _).next fun tok => ?_
  refine Lockstep.get.bind fun s s' hs => ?_
  rw [hs.stream]
  split
  · exact .unexpected _ _
  · exact (skip_lockstep _).next fun _ => declared_lockstep _

/-! ## Loops, conditions and sections -/

variable {t t' : Tools} (ht : P.Uses t t')
include ht

theorem block_lockstep (f : Frame) {ts : List Token} (hts : Token.Part P.tokens ts) :
    P.Lockstep (block t f ts) (block t' f ts) fun n n' => n.bare = n'.bare := by
  refine (region_lockstep ht f hts _).bind fun ns ns' hns => .pure ?_
  simp only [bare]
  rw [hns]

omit ht in
theorem emit_node_lockstep {n n' : Node} (h : n.bare = n'.bare) (before : List Node) :
    P.Lockstep (emit (before ++ [n])) (emit (before ++ [n'])) Eq :=
  emit_lockstep (by simp [bareAll, h])

theorem forLoop_lockstep (id : Ident) : P.Lockstep (forLoop t id) (forLoop t' id) Eq := by
  refine rest_lockstep.bind ?_
  rintro ts _ ⟨rfl, hts⟩
  refine (untilBrace_lockstep _ _ hts).bind ?_
  rintro ⟨header, f, cs⟩ _ ⟨rfl, hcs⟩
  dsimp only
  split
  · exact .throw _
  · refine (block_lockstep ht f hcs).bind fun body body' hbody => ?_
    refine (emit_lockstep rfl).next fun _ => ?_
    refine (emit_lockstep rfl).next fun _ => ?_
    exact (emit_node_lockstep hbody []).next fun _ => .pure rfl

theorem whileLoop_lockstep (id : Ident) : P.Lockstep (whileLoop t id) (whileLoop t' id) Eq := by
  refine rest_lockstep.bind ?_
  rintro ts _ ⟨rfl, hts⟩
  refine (untilBrace_lockstep _ _ hts).bind ?_
  rintro ⟨header, f, cs⟩ _ ⟨rfl, hcs⟩
  refine .guard fun _ => ?_
  refine (block_lockstep ht f hcs).bind fun body body' hbody => ?_
  refine (emit_lockstep rfl).next fun _ => ?_
  refine (emit_lockstep rfl).next fun _ => ?_
  exact (emit_node_lockstep hbody []).next fun _ => .pure rfl

theorem branch_lockstep (id : Ident) : P.Lockstep (branch t id) (branch t' id) Eq := by
  refine rest_lockstep.bind ?_
  rintro ts _ ⟨rfl, hts⟩
  refine (untilBrace_lockstep _ _ hts).bind ?_
  rintro ⟨header, f, cs⟩ _ ⟨rfl, hcs⟩
  refine .guard fun _ => ?_
  refine (block_lockstep ht f hcs).bind fun body body' hbody => ?_
  refine (emit_lockstep rfl).next fun _ => ?_
  exact emit_node_lockstep hbody []

omit ht in
theorem mem_of_elseAhead {ts : List Token} {word next : Token} {count : Nat}
    (h : elseAhead ts = some (word, next, count)) : next ∈ ts := by
  unfold elseAhead at h
  repeat' split at h
  all_goals cases h
  all_goals simp

theorem elseBranches_lockstep (n : Nat) :
    P.Lockstep (elseBranches t n) (elseBranches t' n) Eq := by
  induction n with
  | zero => exact .throw _
  | succ n ih =>
    refine rest_lockstep.bind ?_
    rintro ts _ ⟨rfl, hts⟩
    split
    · exact .pure rfl
    · rename_i word next count hahead
      have hmem := mem_of_elseAhead hahead
      split
      · split
        · refine (skip_lockstep _).next fun _ => ?_
          refine (emit_lockstep rfl).next fun _ => ?_
          exact (branch_lockstep ht _).next fun _ => ih
        · exact .pure rfl
      · split
        · refine (skip_lockstep _).next fun _ => ?_
          refine (block_lockstep ht _ (hts.group hmem)).bind fun body body' hbody => ?_
          exact emit_node_lockstep hbody [_]
        · exact .pure rfl
      · exact .pure rfl

theorem condition_lockstep (id : Ident) : P.Lockstep (condition t id) (condition t' id) Eq := by
  refine (emit_lockstep rfl).next fun _ => ?_
  refine (branch_lockstep ht id).next fun _ => ?_
  refine rest_lockstep.bind ?_
  rintro ts _ ⟨rfl, -⟩
  exact (elseBranches_lockstep ht _).next fun _ => .pure rfl

omit ht in
/-- The group that is next is a part of the file. -/
theorem Alike.peekGroup {s s' : State} (hs : P.Alike s s') {d : Delimiter} {f : Frame}
    {cs : List Token} (h : s.stream.peekGroup d = some (f, cs)) : Token.Part P.tokens cs := by
  have hpart := hs.part
  unfold Stream.peekGroup at h
  split at h
  · rename_i f' cs' ts hrest
    split at h
    · cases h
      rw [hrest] at hpart
      exact hpart.inner
    · cases h
  · cases h

theorem defineSection_lockstep (id : Ident) :
    P.Lockstep (defineSection t id) (defineSection t' id) Eq := by
  refine (argument_lockstep id _).next fun tok => ?_
  split
  · exact .unexpected _ _
  · refine (skip_lockstep _).next fun _ => ?_
    refine Lockstep.get.bind fun s s' hs => ?_
    rw [hs.stream]
    split
    · exact .fail _ _
    · rename_i f cs hgroup
      refine (skip_lockstep _).next fun _ => ?_
      refine (region_lockstep ht _ (hs.peekGroup hgroup) _).bind fun ns ns' hns => ?_
      refine (emit_node_lockstep ?_ []).next fun _ => ?_
      · simp only [bare]
        rw [hns]
      · exact trimLine_lockstep.next fun _ => .pure rfl

omit ht in
theorem callArguments_lockstep : P.Lockstep callArguments? callArguments? fun a b =>
    a = b ∧ ∀ f cs, a = some (f, cs) → Token.Part P.tokens cs := by
  refine Lockstep.get.bind fun s s' hs => .pure ⟨by rw [hs.stream], fun f cs h => ?_⟩
  exact hs.peekGroup (Option.eq_some_of_filter_eq_some h)

theorem renderSection_lockstep (id : Ident) :
    P.Lockstep (renderSection t id) (renderSection t' id) Eq := by
  refine callArguments_lockstep.bind ?_
  rintro args _ ⟨rfl, hargs⟩
  split
  · exact .fail _ _
  · refine (skip_lockstep _).next fun _ => ?_
    refine (region_lockstep ht _ (hargs _ _ rfl) _).bind fun ns ns' hns => ?_
    rw [hns.isEmpty]
    refine .guard fun _ => ?_
    refine (emit_node_lockstep ?_ []).next fun _ => .pure rfl
    simp only [contextCall, bare, bareAll]
    rw [hns]

omit ht in
theorem renderBody_lockstep (id : Ident) : P.Lockstep (renderBody id) (renderBody id) Eq := by
  have hcall (f : Frame) : P.Lockstep (do
      emit [contextCall id "RenderBody" f []]
      return Atmark.Outcome.next) (do
      emit [contextCall id "RenderBody" f []]
      return Atmark.Outcome.next) Eq :=
    (emit_lockstep rfl).next fun _ => .pure rfl
  refine callArguments_lockstep.bind ?_
  rintro args _ ⟨rfl, -⟩
  dsimp only
  split
  · refine (skip_lockstep _).next fun _ => ?_
    exact .guard fun _ => hcall _
  · exact hcall _

/-! ## Contents of other files -/

omit ht in
/-- The argument is the next token, which is not taken. -/
theorem argument_returns {id : Ident} {expecting : String} {s s₁ : State} {tok : Token}
    (h : Returns (argument id expecting) s tok s₁) :
    s₁.stream = s.stream ∧ s.stream.rest.head? = some tok := by
  obtain ⟨next, s₂, hpeek, h₁⟩ := h.bind
  obtain ⟨hnext, rfl⟩ := hpeek.peek
  cases next with
  | none => exact h₁.fail.elim
  | some next =>
    dsimp only at h₁
    split at h₁
    · obtain ⟨_, _, hfail, -⟩ := h₁.bind
      exact hfail.fail.elim
    · obtain ⟨_, s₃, hlast, h₃⟩ := h₁.bind
      obtain ⟨rfl, rfl⟩ := h₃.pure
      rw [hlast.modify]
      exact ⟨rfl, hnext.symm⟩

omit ht in
/-- A path that is read is written in the file, after the name of the directive. -/
theorem pathArgument_outcome {id : Ident} {s s' : State} (hs : P.Alike s s')
    (hpart : Token.Part P.tokens (.ident id :: s.stream.rest)) :
    P.Outcome (fun a b => a = b ∧ ∀ ds, id.name ∈ ds → Directive.Names ds P.tokens a.1)
      (pathArgument id s) (pathArgument id s') := by
  refine (argument_lockstep id "path" s s' hs).bind fun tok _ s₁ s₁' h₁ htok hs₁ => ?_
  cases htok
  obtain ⟨hstream, hhead⟩ := argument_returns h₁
  obtain ⟨ts, hts⟩ := List.head?_eq_some_iff.mp hhead
  have hnames {name : Text} (h : pathAfter? (tok :: ts) = some name) (ds : List Text)
      (hid : id.name ∈ ds) : Directive.Names ds P.tokens name := ⟨id, tok :: ts, hts ▸ hpart, hid, h⟩
  have hbare (h : ∀ name, some (Token.sourceOf (pathTokens true (tok :: ts))) = some name →
      pathAfter? (tok :: ts) = some name) :
      P.Outcome (fun a b => a = b ∧ ∀ ds, id.name ∈ ds → Directive.Names ds P.tokens a.1)
      ((do
        let ts := pathTokens true (← rest)
        if ts.isEmpty then unexpected tok (.afterDirective id.name (utf8 "path"))
        skip ts.length
        return (Token.sourceOf ts, tok.pos)) s₁) ((do
        let ts := pathTokens true (← rest)
        if ts.isEmpty then unexpected tok (.afterDirective id.name (utf8 "path"))
        skip ts.length
        return (Token.sourceOf ts, tok.pos)) s₁') := by
    refine (rest_lockstep s₁ s₁' hs₁).bind fun us _ s₂ s₂' h₂ hus hs₂ => ?_
    obtain ⟨rfl, -⟩ := hus
    have hus : us = tok :: ts := by
      injection h₂ with h₂
      rw [← h₂, hstream, hts]
    rw [hus]
    refine .guard hs₂ fun _ => ?_
    exact ((skip_lockstep _).next fun _ => .pure ⟨rfl, hnames (h _ rfl)⟩) s₂ s₂' hs₂
  cases tok with
  | literal l =>
    cases hl : l.isString with
    | true =>
      simp only [hl, if_true]
      refine (skip_lockstep _ s₁ s₁' hs₁).bind fun _ _ s₂ s₂' _ _ hs₂ => ?_
      cases hvalue : l.value? with
      | none => exact Lockstep.fail _ _ s₂ s₂' hs₂
      | some name => exact .ok ⟨rfl, hnames (by simp [pathAfter?, hl, hvalue])⟩ hs₂
    | false =>
      simp only [hl, Bool.false_eq_true, if_false]
      exact hbare fun name h => by simpa [pathAfter?, hl] using h
  | ident | punct | group => exact hbare fun name h => h

omit ht in
theorem laterContent_lockstep (name : Text) (pos : Option Position) (markdown : Bool) :
    P.Lockstep (laterContent name pos markdown) (laterContent name pos markdown) Eq := by
  have hcheck : P.Lockstep (checkName name pos) (checkName name pos) Eq := by
    unfold checkName
    refine .guard fun _ => ?_
    refine Lockstep.get.bind fun s s' hs => ?_
    rw [hs.path.1, hs.path.2]
    split
    · exact .fail _ _
    · exact .pure rfl
  refine hcheck.next fun _ => ?_
  refine Lockstep.get.bind fun s s' hs => ?_
  rw [hs.path.1, hs.path.2]
  exact (emit_lockstep rfl).next fun _ => .pure rfl

omit ht in
theorem emitted_lockstep {m m' : ParseM Fragment} (h : P.Lockstep m m' SameBare) :
    P.Lockstep (do
      let fragment ← m
      emit fragment.nodes
      return Atmark.Outcome.next) (do
      let fragment ← m'
      emit fragment.nodes
      return Atmark.Outcome.next) Eq := by
  refine h.bind fun f f' hf => ?_
  exact (emit_lockstep (sameBare_iff.mp hf).1).next fun _ => .pure rfl

theorem htmlFile_outcome (cached : Bool) {id : Ident}
    (hid : cached = true → id.name ∈ [ContentKind.html.directive]) {s s' : State} (hs : P.Alike s s')
    (hpart : Token.Part P.tokens (.ident id :: s.stream.rest)) :
    P.Outcome Eq (htmlFile cached t id s) (htmlFile cached t' id s') := by
  refine (pathArgument_outcome hs hpart).bind fun a _ s₁ s₁' _ ha hs₁ => ?_
  obtain ⟨rfl, hnames⟩ := ha
  cases cached with
  | false => exact laterContent_lockstep _ _ _ s₁ s₁' hs₁
  | true => exact emitted_lockstep (ht.cached .html a.1 a.2 (hnames _ (hid rfl))) s₁ s₁' hs₁

theorem markdownFile_outcome (cached : Bool) {id : Ident}
    (hid : cached = true → id.name ∈ [ContentKind.markdown.directive]) {s s' : State} (hs : P.Alike s s')
    (hpart : Token.Part P.tokens (.ident id :: s.stream.rest)) :
    P.Outcome Eq (markdownFile cached t id s) (markdownFile cached t' id s') := by
  refine (pathArgument_outcome hs hpart).bind fun a _ s₁ s₁' _ ha hs₁ => ?_
  obtain ⟨rfl, hnames⟩ := ha
  cases cached with
  | false => exact laterContent_lockstep _ _ _ s₁ s₁' hs₁
  | true => exact emitted_lockstep (ht.cached .markdown a.1 a.2 (hnames _ (hid rfl))) s₁ s₁' hs₁

theorem templateFile_outcome (cached : Bool) {id : Ident} (hid : id.name ∈ readingNames)
    (hcached : cached = true → id.name ∈ [ContentKind.template.directive]) {s s' : State}
    (hs : P.Alike s s') (hpart : Token.Part P.tokens (.ident id :: s.stream.rest)) :
    P.Outcome Eq (templateFile cached t id s) (templateFile cached t' id s') := by
  have hwrite (f f' : Fragment) (hf : SameBare f f') : P.Lockstep (do
      declare fun d => f.injects.foldl Declarations.addInject
        (f.imports.foldl Declarations.addImport d)
      emit f.nodes
      return Atmark.Outcome.next) (do
      declare fun d => f'.injects.foldl Declarations.addInject
        (f'.imports.foldl Declarations.addImport d)
      emit f'.nodes
      return Atmark.Outcome.next) Eq := by
    obtain ⟨hnodes, himports, hinjects⟩ := sameBare_iff.mp hf
    rw [himports, hinjects]
    refine (declare_lockstep _).next fun _ => ?_
    exact (emit_lockstep hnodes).next fun _ => .pure rfl
  refine (pathArgument_outcome hs hpart).bind fun a _ s₁ s₁' _ ha hs₁ => ?_
  obtain ⟨rfl, hnames⟩ := ha
  cases cached with
  | false => exact (ht.fresh a.1 a.2 (hnames _ hid)).bind hwrite s₁ s₁' hs₁
  | true => exact (ht.cached .template a.1 a.2 (hnames _ (hcached rfl))).bind hwrite s₁ s₁' hs₁

theorem markdownText_lockstep (src : Text) (pos : Option Position) :
    P.Lockstep (markdownText t src pos) (markdownText t' src pos) Eq := by
  have hsettings : t'.settings.markdown = t.settings.markdown := by rw [ht.settings]
  unfold markdownText Content.renderMarkdown
  rw [hsettings]
  split
  · exact .pure rfl
  · exact .throw _

theorem markdown_lockstep (id : Ident) : P.Lockstep (markdown t id) (markdown t' id) Eq := by
  have hsource : P.Lockstep (markdownSource id) (markdownSource id) Eq := by
    refine (argument_lockstep id _).next fun tok => ?_
    dsimp only
    split
    · split
      · exact .unexpected _ _
      · split
        · exact .pure rfl
        · exact .fail _ _
    · split
      · exact .pure rfl
      · exact .unexpected _ _
    · exact .unexpected _ _
  refine hsource.next fun source => ?_
  refine (skip_lockstep _).next fun _ => ?_
  refine (markdownText_lockstep ht source.1 source.2).next fun _ => ?_
  exact (emitText_lockstep _ _ _).next fun _ => .pure rfl

end Pairing

/-! ## The standard registry -/

theorem Directive.builtin_blind {d : Directive} (hd : d ∈ builtinDirectives) : d.Blind := by
  intro P t t' ht id hid s s' hs hpart
  simp only [builtinDirectives, List.mem_cons, List.not_mem_nil, or_false] at hd
  rcases hd with rfl | rfl | rfl | rfl | rfl | rfl | rfl | rfl | rfl | rfl | rfl | rfl | rfl | rfl |
    rfl | rfl | rfl | rfl | rfl | rfl | rfl | rfl | rfl
  · exact Pairing.model_lockstep id s s' hs
  · exact Pairing.viewName_lockstep id s s' hs
  · exact Pairing.parameter_lockstep id s s' hs
  · exact Pairing.parameter_lockstep id s s' hs
  · exact Pairing.use_lockstep id s s' hs
  · exact Pairing.inject_lockstep id s s' hs
  · exact Pairing.codeSection_lockstep id s s' hs
  · exact Pairing.codeSection_lockstep id s s' hs
  · exact Pairing.codeSection_lockstep id s s' hs
  · exact Pairing.forLoop_lockstep ht id s s' hs
  · exact Pairing.whileLoop_lockstep ht id s s' hs
  · exact Pairing.condition_lockstep ht id s s' hs
  · exact Pairing.Lockstep.fail _ _ s s' hs
  · exact Pairing.defineSection_lockstep ht id s s' hs
  · exact Pairing.renderSection_lockstep ht id s s' hs
  · exact Pairing.renderBody_lockstep id s s' hs
  · exact Pairing.htmlFile_outcome ht true (fun _ => by simp [hid, builtin, ContentKind.directive]) hs hpart
  · exact Pairing.htmlFile_outcome ht false (fun h => by cases h) hs hpart
  · exact Pairing.templateFile_outcome ht true (by simp [hid, builtin, readingNames])
      (fun _ => by simp [hid, builtin, ContentKind.directive]) hs hpart
  · exact Pairing.templateFile_outcome ht false (by simp [hid, builtin, readingNames])
      (fun h => by cases h) hs hpart
  · exact Pairing.markdown_lockstep ht id s s' hs
  · exact Pairing.markdownFile_outcome ht true (fun _ => by simp [hid, builtin, ContentKind.directive])
      hs hpart
  · exact Pairing.markdownFile_outcome ht false (fun h => by cases h) hs hpart

namespace Environment

theorem attribute?_bare (c : ElementContext) (name : Text) :
    c.bare.attribute? name = (c.attribute? name).map Attribute.bare := by
  unfold ElementContext.attribute? ElementContext.bare
  rw [List.find?_map]
  rfl

theorem listed?_bare (c : ElementContext) (attr : String) : listed? c.bare attr = listed? c attr := by
  unfold listed?
  rw [attribute?_bare]
  cases c.attribute? (utf8 attr) with
  | none => rfl
  | some a =>
    obtain ⟨name, value⟩ := a
    cases value with
    | none => rfl
    | some v =>
      simp only [Option.map_some, Attribute.bare, AttrValue.static?_bare]
      rfl

theorem hook_blind : hook.Blind := by
  intro c c' hc
  have hlisted (attr : String) : listed? c attr = listed? c' attr := by
    rw [← listed?_bare, hc, listed?_bare]
  have hchildren : bareAll c.children = bareAll c'.children := (ElementContext.mk.inj hc).2.2.2.1
  obtain ⟨-, -, -, -, -, hpos, henv⟩ := ElementContext.mk.inj hc
  change (run c).map _ = (run c').map _
  unfold run
  rw [hlisted, hlisted, hpos, henv]
  cases listed? c' "include" with
  | error e => rfl
  | ok includes =>
    cases listed? c' "exclude" with
    | error e => rfl
    | ok excludes =>
      simp only [bind, Except.bind]
      split
      · rfl
      · simp only [pure, Except.pure, Except.map, Option.map_some]
        split
        · rw [hchildren]
        · rfl

end Environment

theorem Registry.standard_blind : standard.Blind where
  directives := fun _ hd => Directive.builtin_blind hd
  tagHooks := by simp [standard]
  elementHooks := by
    intro h hh
    rw [List.mem_singleton.mp hh]
    exact Environment.hook_blind

end Atmark
