import Atmark.Proofs.Directive.Environment
import Atmark.Proofs.Directive.Header
import Atmark.Proofs.Parse.Grounded

/-! The directives of the language lead from grounded states to grounded states. Those that read a name, a type or a
path add nothing to the region; clauses of loops are made of tokens of their headers; what is included is grounded
because its source is, or because it was when it was cached. A statement is never empty, since it declares
something. -/
namespace Atmark
open Node ParseM

variable {S : Text → Prop}

/-! ## Types -/

namespace ParseM

theorem typePath_grounds {arguments : Option Position → ParseM (List Token)}
    (ha : ∀ pos, Grounds S (arguments pos) fun _ => True) {ts : List Token} (hts : Token.ReadFrom S ts) :
    Grounds S (typePath arguments ts) fun _ => True := by
  have hnone : Grounds S (pure []) fun _ : List Token => True := .pure trivial
  fun_induction typePath arguments ts with
  | case1 => exact hnone
  | case2 => exact hnone
  | case3 tok ts _ ihPath ihDot =>
    have hsegment (pos : Option Position) (n : Ident) (k : Nat) {us : List Token}
        (ih : Grounds S (typePath arguments us) fun _ => True) :
        Grounds S (do
          skip k
          return .mark pos '.' :: .word n.pos n.name :: (← typePath arguments us)) fun _ => True :=
      (skip_grounds _).bind fun _ _ => ih.bind fun _ _ => .pure trivial
    refine (setLast_grounds hts.pos).bind fun _ _ => ?_
    split
    · refine .guard fun _ => ?_
      split
      · split
        · exact hsegment _ _ _ (ihPath hts.tail.tail.tail)
        · exact .fail _ _
      · exact .fail _ _
    split
    · split
      · split
        · exact hsegment _ _ _ (ihDot hts.tail.tail)
        · exact hnone
      · exact hnone
    split
    · exact (skip_grounds _).bind fun _ _ => (ha _).bind fun _ _ => .pure trivial
    · exact hnone

theorem typeFrom_grounds {arguments : Option Position → ParseM (List Token)}
    (ha : ∀ pos, Grounds S (arguments pos) fun _ => True) {ts : List Token} (hts : Token.ReadFrom S ts) :
    Grounds S (typeFrom arguments ts) fun _ => True := by
  induction ts with
  | nil => exact Grounds.get.bind fun _ _ => .fail _ _
  | cons tok ts ih =>
    unfold typeFrom
    split
    · refine (skip_grounds _).bind fun _ _ => ?_
      split
      · exact (ih hts.tail).bind fun _ _ => .pure trivial
      · exact .fail _ _
    · split
      · refine (skip_grounds _).bind fun _ _ => ?_
        exact (typePath_grounds ha hts.tail).bind fun _ _ => .pure trivial
      · exact .unexpected _ _

mutual

theorem typeWithin_grounds (n : Nat) : Grounds S (typeWithin n) fun _ => True := by
  match n with
  | 0 => exact .throw _
  | n + 1 =>
    refine checkStop_grounds.bind fun _ _ => ?_
    exact rest_grounds.bind fun ts hts => typeFrom_grounds (typeArguments_grounds n) hts

theorem typeArguments_grounds (n : Nat) (pos : Option Position) :
    Grounds S (typeArguments n pos) fun _ => True := by
  match n with
  | 0 => exact .throw _
  | n + 1 =>
    refine (typeWithin_grounds n).bind fun arg _ => ?_
    refine peek_grounds.bind fun next _ => ?_
    split
    · exact .fail _ _
    · refine (skip_grounds _).bind fun _ _ => ?_
      split
      · exact .pure trivial
      split
      · exact (typeArguments_grounds n pos).bind fun _ _ => .pure trivial
      · exact .unexpected _ _

end

theorem typeName_grounds : Grounds S typeName fun _ => True :=
  rest_grounds.bind fun _ _ => typeWithin_grounds _

end ParseM

/-- The group that is next has a position, and its tokens are read from a source. -/
theorem State.Grounded.ofGroup {s : State} (hs : s.Grounded S) {d : Delimiter} {f : Frame} {cs : List Token}
    (h : s.stream.peekGroup d = some (f, cs)) : f.pos.isSome = true ∧ Token.ReadFrom S cs := by
  have hts := hs.tokens
  unfold Stream.peekGroup at h
  split at h
  · rename_i f' cs' ts hrest
    rw [hrest] at hts
    split at h
    · cases h
      exact ⟨hts.pos, hts.inner⟩
    · cases h
  · cases h

namespace Directive

/-! ## Declarations -/

theorem declarable_grounds (id : Ident) : Grounds S (declarable id) fun _ => True := by
  refine Grounds.get.bind fun _ _ => ?_
  split
  · exact .fail _ _
  · exact .pure trivial

theorem argument_grounds (id : Ident) (expecting : String) :
    Grounds S (argument id expecting) fun tok => ∃ ts, Token.ReadFrom S (tok :: ts) := by
  refine peek_grounds.bind fun next hnext => ?_
  split
  · exact .fail _ _
  · obtain ⟨ts, hts⟩ := hnext _ rfl
    refine .guard fun _ => ?_
    exact (setLast_grounds hts.pos).bind fun _ _ => .pure ⟨ts, hts⟩

theorem stringArgument_grounds (id : Ident) : Grounds S (stringArgument id) fun _ => True := by
  refine (argument_grounds id _).bind fun tok _ => ?_
  split
  · refine .guard fun _ => ?_
    refine (skip_grounds _).bind fun _ _ => ?_
    split
    · exact .pure trivial
    · exact .fail _ _
  · exact .unexpected _ _

/-- A declaration that adds no statement is noted and leaves out the rest of its line. -/
theorem declared_grounds {f : Declarations → Declarations} (h : ∀ d, [] ∉ d.injects → [] ∉ (f d).injects) :
    Grounds S (do
      declare f
      trimLine
      return Outcome.next) fun _ => True :=
  (declare_grounds h).bind fun _ _ => trimLine_grounds.bind fun _ _ => .pure trivial

theorem model_grounds (id : Ident) : Grounds S (model id) fun _ => True := by
  refine peek_grounds.bind fun next _ => ?_
  dsimp only
  split
  · exact .pure trivial
  · refine (declarable_grounds id).bind fun _ _ => ?_
    refine Grounds.get.bind fun s _ => ?_
    refine .guard fun _ => ?_
    refine (argument_grounds id _).bind fun _ _ => ?_
    exact typeName_grounds.bind fun _ _ => declared_grounds fun _ hd => hd

theorem viewName_grounds (id : Ident) : Grounds S (viewName id) fun _ => True := by
  refine (declarable_grounds id).bind fun _ _ => ?_
  refine Grounds.get.bind fun s _ => ?_
  refine .guard fun _ => ?_
  refine (stringArgument_grounds id).bind fun value _ => ?_
  exact .guard fun _ => declared_grounds fun _ hd => hd

theorem parameter_grounds (id : Ident) : Grounds S (parameter id) fun _ => True := by
  refine (declarable_grounds id).bind fun _ _ => ?_
  refine Grounds.get.bind fun s _ => ?_
  split
  · exact .fail _ _
  · exact (stringArgument_grounds id).bind fun _ _ => declared_grounds fun _ hd => hd

theorem importName_grounds : Grounds S importName fun _ => True := by
  refine peek_grounds.bind fun next _ => ?_
  split
  · exact (skip_grounds _).bind fun _ _ => .pure trivial
  · split
    · exact (skip_grounds _).bind fun _ _ => .pure trivial
    · exact .pure trivial
  · exact .pure trivial

theorem injects_addImport (d : Declarations) (i : Import) : (d.addImport i).injects = d.injects := by
  unfold Declarations.addImport
  split <;> rfl

theorem use_grounds (id : Ident) : Grounds S (use id) fun _ => True := by
  refine (argument_grounds id _).bind fun _ _ => ?_
  refine importName_grounds.bind fun name _ => ?_
  refine peek_grounds.bind fun next _ => ?_
  split
  · exact .fail _ _
  · refine (skip_grounds _).bind fun _ _ => ?_
    split
    · refine .guard fun _ => ?_
      split
      · exact .fail _ _
      · rename_i path _
        have hadd : Grounds S (do
            if (← peek).any fun t => t.isPunct ';' && !Text.breaksLine t.space then skip 1
            declare (·.addImport ⟨name, path⟩)
            trimLine
            return Outcome.next) fun _ => True := by
          have himport : Grounds S (do
              declare (·.addImport ⟨name, path⟩)
              trimLine
              return Outcome.next) fun _ => True := declared_grounds fun d hd => by rwa [injects_addImport]
          refine peek_grounds.bind fun next _ => ?_
          split
          · exact (skip_grounds _).bind fun _ _ => himport
          · exact himport
        dsimp only
        split
        · exact (Grounds.fail (Q := fun _ => True) _ _).bind fun _ _ => hadd
        · exact hadd
    · exact .unexpected _ _

theorem not_mem_addInject {d : Declarations} (hd : [] ∉ d.injects) {stmt : List Token} (h : stmt ≠ []) :
    [] ∉ (d.addInject stmt).injects := by
  unfold Declarations.addInject
  split
  · exact hd
  · simp [hd, Ne.symm h]

/-- Statements that are taken over have tokens if they had some where they were declared. -/
theorem not_mem_takenOver {imports : List Import} {injects : List (List Token)} {d : Declarations}
    (hinjects : [] ∉ injects) (hd : [] ∉ d.injects) :
    [] ∉ (injects.foldl Declarations.addInject (imports.foldl Declarations.addImport d)).injects := by
  have himports : (imports.foldl Declarations.addImport d).injects = d.injects := by
    clear hd
    induction imports generalizing d with
    | nil => rfl
    | cons i imports ih => rw [List.foldl_cons, ih, injects_addImport]
  rw [← himports] at hd
  generalize imports.foldl Declarations.addImport d = e at hd
  induction injects generalizing e with
  | nil => exact hd
  | cons stmt injects ih =>
    obtain ⟨hstmt, hrest⟩ := List.ne_and_not_mem_of_not_mem_cons hinjects
    exact ih hrest _ (not_mem_addInject hd hstmt.symm)

/-- What declares nothing is no statement, so a statement has a token. -/
theorem inject_grounds (id : Ident) : Grounds S (inject id) fun _ => True := by
  refine (argument_grounds id _).bind fun _ _ => ?_
  refine rest_grounds.bind fun ts _ => ?_
  dsimp only
  refine (skip_grounds _).bind fun _ _ => ?_
  refine .guard fun hdeclares => declared_grounds fun d hd => not_mem_addInject hd ?_
  intro hnil
  rw [hnil] at hdeclares
  exact hdeclares rfl

theorem codeSection_grounds (id : Ident) : Grounds S (codeSection id) fun _ => True := by
  refine (declarable_grounds id).bind fun _ _ => ?_
  refine (argument_grounds id _).bind fun _ _ => ?_
  refine Grounds.get.bind fun s _ => ?_
  split
  · exact .unexpected _ _
  · exact (skip_grounds _).bind fun _ _ => declared_grounds fun _ hd => hd

/-! ## Loops and conditions -/

theorem allGrounded_spaced {ts : List Token} (h : Token.AllGrounded ts) : Token.AllGrounded (spaced ts) := by
  cases ts with
  | nil => exact h
  | cons t ts =>
    refine .cons ?_ ?_ h.tail
    · have ht := h.head
      cases t with
      | ident | punct => exact ⟨ht.pos, nofun, nofun⟩
      | literal l =>
        refine ⟨ht.pos, ?_, nofun⟩
        rintro l' ⟨⟩
        exact ht.quoted l rfl
      | group f cs =>
        refine ⟨ht.pos, nofun, ?_⟩
        rintro f' cs' ⟨⟩
        exact ht.delimited f cs rfl
    · intro f cs hg
      cases t with
      | group f' cs' =>
        cases hg
        exact h.inner
      | _ => cases hg

@[simp] theorem lists_keyword (t : Token) (name : Text) (space : String) : (keyword t name space).lists = [] := rfl

@[simp] theorem lists_sign (pos : Option Position) (c : Char) (space : String) : (sign pos c space).lists = [] := rfl

theorem keyword_grounded {t : Token} (ht : t.pos.isSome = true) (name : Text) (space : String) :
    (keyword t name space).Grounded S := ⟨ht, trivial⟩

theorem sign_grounded {pos : Option Position} (hpos : pos.isSome = true) (c : Char) (space : String) :
    (sign pos c space).Grounded S := ⟨hpos, trivial⟩

/-- The word at which a statement starts. -/
theorem word_grounded {id : Ident} (hid : id.pos.isSome = true) (word : String) :
    AllGrounded S [keyword (.ident id) (utf8 word) ""] :=
  AllGrounded.nil.leaf (keyword_grounded (t := .ident id) hid _ _) rfl

theorem rangeClause_grounded {v : Ident} (hv : v.pos.isSome = true) {pos : Option Position}
    (hpos : pos.isSome = true) {first last : List Token} (hfirst : Token.AllGrounded first)
    (hlast : Token.AllGrounded last) (inclusive : Bool) :
    AllGrounded S (rangeClause v pos first last inclusive) := by
  have hvar := keyword_grounded (S := S) (t := .ident v) hv v.name " "
  have hequals : AllGrounded S (if inclusive then [sign pos '=' ""] else []) := by
    split
    · exact .of_leaves (by simp [sign_grounded hpos])
    · exact .nil
  refine .append (.append (.append (.append (.append ?_ ?_) ?_) hequals) ?_) ?_
  · exact .of_leaves (by simp [hvar, sign_grounded hpos])
  · exact ofTokens_grounded (allGrounded_spaced hfirst)
  · exact .of_leaves (by simp [hvar, sign_grounded hpos])
  · exact ofTokens_grounded (allGrounded_spaced hlast)
  · exact .of_leaves (by simp [hvar, sign_grounded hpos])

theorem iterationClause_grounded {vars : Ident × Option Ident} (hv : vars.1.pos.isSome = true)
    (hw : ∀ w, vars.2 = some w → w.pos.isSome = true) {word : Token} (hword : word.pos.isSome = true)
    {expr : List Token} (hexpr : Token.AllGrounded expr) : AllGrounded S (iterationClause vars word expr) := by
  unfold iterationClause
  split
  rename_i first second hnames
  have hnames' : ∀ n ∈ [first, second], n.Grounded S ∧ n.lists = [] := by
    split at hnames
    · cases hnames
      simp [keyword_grounded (t := .ident _) hv]
    · cases hnames
      simp [keyword_grounded (t := .ident _) hv, keyword_grounded (t := .ident _) (hw _ rfl)]
  refine .append (.of_leaves ?_) (ofTokens_grounded (allGrounded_spaced hexpr))
  simpa [sign_grounded hword, keyword_grounded hword] using hnames'

/-- The variables of a loop stand in its header. -/
theorem pattern_grounded {ts : List Token} {inPos : Option Position} {vars : Ident × Option Ident}
    (hts : Token.AllGrounded ts) (h : pattern ts inPos = .ok vars) :
    vars.1.pos.isSome = true ∧ ∀ w, vars.2 = some w → w.pos.isSome = true := by
  unfold pattern at h
  split at h
  · cases h
    exact ⟨hts.head.pos, by simp⟩
  · split at h
    · cases h
      refine ⟨hts.inner.head.pos, ?_⟩
      rintro w ⟨⟩
      exact hts.inner.tail.tail.head.pos
    · cases h
  · cases h
  · cases h

theorem patternClause_grounded {vars : Ident × Option Ident} (hv : vars.1.pos.isSome = true)
    (hw : ∀ w, vars.2 = some w → w.pos.isSome = true) {word : Token} (hword : word.pos.isSome = true)
    {expr : List Token} (hexpr : Token.AllGrounded expr) {ns : List Node}
    (h : patternClause vars word expr = .ok ns) : AllGrounded S ns := by
  unfold patternClause at h
  split at h
  · cases h
  split at h
  · cases h
    exact iterationClause_grounded hv hw hword hexpr
  · rename_i first pos after hsplit
    obtain ⟨p, q, rfl, rfl, -⟩ := exists_rangeAfter hsplit
    have hlast : Token.AllGrounded
        (if (after.head?.any fun t => t.isPunct '=' && t.glued) = true then after.tail else after) := by
      refine hexpr.mono fun u hu => List.mem_append_right _ (.tail _ (.tail _ ?_))
      split at hu
      · exact List.mem_of_mem_tail hu
      · exact hu
    dsimp only at h
    generalize (if (after.head?.any fun t => t.isPunct '=' && t.glued) = true then after.tail else after) = last
      at h hlast
    split at h
    · cases h
    split at h
    · cases h
      exact rangeClause_grounded hv (hexpr p (.here (by simp))).pos
        (hexpr.mono fun u hu => List.mem_append_left _ hu) hlast _
    · cases h

/-- The clause of a loop is made of the tokens of its header. -/
theorem forClause_grounded {header : List Token} (hheader : Token.AllGrounded header) {ns : List Node}
    (h : forClause header = .ok ns) : AllGrounded S ns := by
  unfold forClause at h
  split at h
  · cases h
    exact ofTokens_grounded hheader
  · rename_i before word expr hsplit
    obtain ⟨rfl, -, -⟩ := of_splitAtFirst hsplit
    cases hvars : pattern before word.pos with
    | error e =>
      rw [hvars] at h
      cases h
    | ok vars =>
      rw [hvars] at h
      change patternClause vars word expr = .ok ns at h
      obtain ⟨hv, hw⟩ := pattern_grounded (hheader.mono fun u hu => List.mem_append_left _ hu) hvars
      refine patternClause_grounded hv hw (hheader word (.here (by simp))).pos ?_ h
      exact hheader.mono fun u hu => List.mem_append_right _ (.tail _ hu)

section Flow
variable {t : Tools} (ht : t.Grounded S)
include ht

theorem block_grounds {f : Frame} (hf : f.pos.isSome = true) {ts : List Token} (hts : Token.ReadFrom S ts) :
    Grounds S (block t f ts) fun n => AllGrounded S [n] := by
  refine (Tools.region_grounds ht hf hts false).bind fun ns hn => ?_
  exact .pure (.single ⟨hf, trivial⟩ (by simpa [lists] using hn) rfl)

omit ht in
/-- A header and the braces behind it are tokens of the source. -/
theorem header_grounds (pos : Option Position) (what : String) {ts : List Token} (hts : Token.ReadFrom S ts) :
    Grounds S (untilBrace pos what ts) fun (header, f, cs) =>
      Token.AllGrounded header ∧ f.pos.isSome = true ∧ Token.ReadFrom S cs := by
  refine (untilBrace_grounds pos what hts).mono fun ⟨header, f, cs⟩ h => ?_
  exact ⟨hts.allGrounded.mono h.1, (hts.grounded h.2).pos, hts.group h.2⟩

theorem forLoop_grounds {id : Ident} (hid : id.pos.isSome = true) :
    Grounds S (forLoop t id) fun _ => True := by
  refine rest_grounds.bind fun ts hts => ?_
  refine (header_grounds _ _ hts).bind fun ⟨header, f, us⟩ ⟨hheader, hf, hus⟩ => ?_
  dsimp only
  split
  · exact .throw _
  · rename_i clause hclause
    refine (block_grounds ht hf hus).bind fun body hb => ?_
    refine (emit_grounds (word_grounded hid "for")).bind fun _ _ => ?_
    refine (emit_grounds (forClause_grounded hheader hclause)).bind fun _ _ => ?_
    exact (emit_grounds hb).bind fun _ _ => .pure trivial

theorem whileLoop_grounds {id : Ident} (hid : id.pos.isSome = true) :
    Grounds S (whileLoop t id) fun _ => True := by
  refine rest_grounds.bind fun ts hts => ?_
  refine (header_grounds _ _ hts).bind fun ⟨header, f, us⟩ ⟨hheader, hf, hus⟩ => ?_
  refine .guard fun _ => ?_
  refine (block_grounds ht hf hus).bind fun body hb => ?_
  refine (emit_grounds (word_grounded hid "for")).bind fun _ _ => ?_
  refine (emit_grounds (ofTokens_grounded (allGrounded_spaced hheader))).bind fun _ _ => ?_
  exact (emit_grounds hb).bind fun _ _ => .pure trivial

theorem branch_grounds (id : Ident) : Grounds S (branch t id) fun _ => True := by
  refine rest_grounds.bind fun ts hts => ?_
  refine (header_grounds _ _ hts).bind fun ⟨header, f, us⟩ ⟨hheader, hf, hus⟩ => ?_
  refine .guard fun _ => ?_
  refine (block_grounds ht hf hus).bind fun body hb => ?_
  refine (emit_grounds (ofTokens_grounded (allGrounded_spaced hheader))).bind fun _ _ => ?_
  exact emit_grounds hb

omit ht in
/-- The word and the token behind it stand where the branch starts. -/
theorem mem_of_elseAhead {ts : List Token} {word next : Token} {count : Nat}
    (h : elseAhead ts = some (word, next, count)) : word ∈ ts ∧ next ∈ ts := by
  unfold elseAhead at h
  split at h
  · split at h
    · split at h
      · cases h
        simp
      · cases h
    · split at h
      · cases h
        simp
      · cases h
  · split at h
    · cases h
      simp
    · cases h
  · cases h

theorem elseBranches_grounds (n : Nat) : Grounds S (elseBranches t n) fun _ => True := by
  induction n with
  | zero => exact .throw _
  | succ n ih =>
    refine rest_grounds.bind fun ts hts => ?_
    split
    · exact .pure trivial
    · rename_i word next count hahead
      obtain ⟨hword, hnext⟩ := mem_of_elseAhead hahead
      have helse := keyword_grounded (S := S) (hts.grounded hword).pos (utf8 "else") " "
      have hpos := (hts.grounded hnext).pos
      split
      · rename_i i
        split
        · have hwords : AllGrounded S [keyword word (utf8 "else") " ", keyword (.ident i) (utf8 "if") " "] :=
            .of_leaves (by simp [helse, keyword_grounded (t := .ident i) hpos])
          refine (skip_grounds _).bind fun _ _ => ?_
          refine (emit_grounds hwords).bind fun _ _ => ?_
          exact (branch_grounds ht _).bind fun _ _ => ih
        · exact .pure trivial
      · split
        · refine (skip_grounds _).bind fun _ _ => ?_
          refine (block_grounds ht hpos (hts.group hnext)).bind fun body hb => ?_
          exact emit_grounds (hb.leaf helse rfl)
        · exact .pure trivial
      · exact .pure trivial

theorem condition_grounds {id : Ident} (hid : id.pos.isSome = true) :
    Grounds S (condition t id) fun _ => True := by
  refine (emit_grounds (word_grounded hid "if")).bind fun _ _ => ?_
  refine (branch_grounds ht id).bind fun _ _ => ?_
  refine rest_grounds.bind fun ts _ => ?_
  exact (elseBranches_grounds ht _).bind fun _ _ => .pure trivial

end Flow

/-! ## Sections -/

theorem contextCall_grounded {id : Ident} (hid : id.pos.isSome = true) (method : String) {f : Frame}
    (hf : f.pos.isSome = true) {args : List Node} (h : AllGrounded S args) :
    AllGrounded S [contextCall id method f args] := by
  have hword (name : Text) := keyword_grounded (S := S) (t := .ident id) hid name ""
  have harguments : AllGrounded S [.group f args] := .single ⟨hf, trivial⟩ (by simpa [lists] using h) rfl
  have hcall : AllGrounded S [keyword (.ident id) contextName "", sign id.pos '.' "",
      keyword (.ident id) (utf8 method) "", .group f args] :=
    ((harguments.leaf (hword _) rfl).leaf (sign_grounded hid '.' "") rfl).leaf (hword _) rfl
  exact .single ⟨hid, trivial⟩ (by simpa [contextCall, lists] using hcall) rfl

theorem callArguments_grounds : Grounds S callArguments? fun args =>
    ∀ f cs, args = some (f, cs) → f.pos.isSome = true ∧ Token.ReadFrom S cs := by
  refine Grounds.get.bind fun s hs => .pure fun f cs hargs => ?_
  exact hs.ofGroup (Option.filter_eq_some_iff.mp hargs).1

theorem renderBody_grounds {id : Ident} (hid : id.pos.isSome = true) :
    Grounds S (renderBody id) fun _ => True := by
  have hcall {f : Frame} (hf : f.pos.isSome = true) : Grounds S (do
      emit [contextCall id "RenderBody" f []]
      return Outcome.next) fun _ => True :=
    (emit_grounds (contextCall_grounded hid _ hf .nil)).bind fun _ _ => .pure trivial
  refine callArguments_grounds.bind fun args hargs => ?_
  dsimp only
  split
  · refine (skip_grounds _).bind fun _ _ => ?_
    exact .guard fun _ => hcall (hargs _ _ rfl).1
  · exact hcall hid

section Sections
variable {t : Tools} (ht : t.Grounded S)
include ht

theorem defineSection_grounds {id : Ident} (hid : id.pos.isSome = true) :
    Grounds S (defineSection t id) fun _ => True := by
  refine (argument_grounds id _).bind fun tok _ => ?_
  split
  · exact .unexpected _ _
  · rename_i name _
    refine (skip_grounds _).bind fun _ _ => ?_
    refine Grounds.get.bind fun s hs => ?_
    split
    · exact .fail _ _
    · rename_i f ts hgroup
      obtain ⟨hf, hts⟩ := hs.ofGroup hgroup
      refine (skip_grounds _).bind fun _ _ => ?_
      refine (Tools.region_grounds ht hf hts _).bind fun nodes hn => ?_
      have hdefine : AllGrounded S [.define id.pos name nodes] :=
        .single ⟨hid, trivial⟩ (by simpa [lists] using hn) rfl
      refine (emit_grounds hdefine).bind fun _ _ => ?_
      exact trimLine_grounds.bind fun _ _ => .pure trivial

theorem renderSection_grounds {id : Ident} (hid : id.pos.isSome = true) :
    Grounds S (renderSection t id) fun _ => True := by
  refine callArguments_grounds.bind fun args hargs => ?_
  split
  · exact .fail _ _
  · obtain ⟨hf, hts⟩ := hargs _ _ rfl
    refine (skip_grounds _).bind fun _ _ => ?_
    refine (Tools.region_grounds ht hf hts _).bind fun args ha => ?_
    refine .guard fun _ => ?_
    exact (emit_grounds (contextCall_grounded hid _ hf ha)).bind fun _ _ => .pure trivial

end Sections

/-! ## Contents of other files -/

/-- The path that a directive names has the position of its first token. -/
theorem pathArgument_grounds (id : Ident) : Grounds S (pathArgument id) fun (_, pos) => pos.isSome = true := by
  refine (argument_grounds id _).bind fun tok ⟨ts, hts⟩ => ?_
  have hbare : Grounds S (do
      let ts := pathTokens true (← rest)
      if ts.isEmpty then unexpected tok (.afterDirective id.name (utf8 "path"))
      skip ts.length
      return (Token.sourceOf ts, tok.pos)) fun (_, pos) => pos.isSome = true := by
    refine rest_grounds.bind fun ts _ => ?_
    refine .guard fun _ => ?_
    exact (skip_grounds _).bind fun _ _ => .pure hts.pos
  dsimp only
  split
  · split
    · refine (skip_grounds _).bind fun _ _ => ?_
      split
      · exact .pure hts.pos
      · exact .fail _ _
    · exact hbare
  · exact hbare

/-- A content that is read is the content of a file. -/
theorem exists_file_of_read {files : Option Files} {file name : Text} {pos : Option Position} {data path : Text}
    {tried : Option (Text × Text × FileError)} (h : Content.read files file name pos = (.ok (data, path), tried)) :
    ∃ fs, files = some fs ∧ ∃ at', fs.read at' = .ok data := by
  unfold Content.read at h
  split at h
  · cases h
  split at h
  · cases h
  dsimp only at h
  split at h
  · cases h
  · rename_i fs
    split at h
    · rename_i data hdata
      cases h
      exact ⟨fs, rfl, _, hdata⟩
    · split at h
      · cases h
      split at h
      · rename_i data hdata
        cases h
        exact ⟨fs, rfl, _, hdata⟩
      · cases h

theorem readContent_grounds {t : Tools} (ht : t.Grounded S) (name : Text) (pos : Option Position) :
    Grounds S (readContent t name pos) fun (data, _) => S data := by
  refine Grounds.get.bind fun s _ => ?_
  cases hread : Content.read t.settings.files s.path name pos with
  | mk result tried =>
    cases result with
    | error e =>
      dsimp only
      split
      · exact (note_grounds _ _).bind fun _ _ => .throw _
      · exact .throw _
    | ok found =>
      obtain ⟨files, hfiles, path, hdata⟩ := exists_file_of_read hread
      have hfound : S found.1 := ht.files files path _ hfiles hdata
      dsimp only
      split
      · exact (note_grounds _ _).bind fun _ _ => .pure hfound
      · exact .pure hfound

theorem cacheKey_grounds (kind : ContentKind) (name : Text) : Grounds S (cacheKey? kind name) fun found =>
    ∀ c k, found = some (c, k) → ∀ e ∈ c.entries, e.2.Grounded S := by
  refine Grounds.get.bind fun s hs => ?_
  split
  · exact .pure (by simp)
  · rename_i c hc
    split
    · exact .pure (by simp)
    · refine .pure fun c' k hk => ?_
      obtain ⟨_, _, h⟩ := Option.map_eq_some_iff.mp hk
      cases h
      exact hs.cache c hc

theorem checkName_grounds (name : Text) (pos : Option Position) :
    Grounds S (checkName name pos) fun _ => True := by
  unfold checkName
  refine .guard fun _ => ?_
  refine Grounds.get.bind fun s _ => ?_
  split
  · exact .fail _ _
  · exact .pure trivial

theorem laterContent_grounds (name : Text) {pos : Option Position} (hpos : pos.isSome = true) (markdown : Bool) :
    Grounds S (laterContent name pos markdown) fun _ => True := by
  refine (checkName_grounds name pos).bind fun _ _ => ?_
  refine Grounds.get.bind fun s _ => ?_
  have hnode : AllGrounded S [.external pos name s.path markdown] :=
    AllGrounded.nil.leaf ⟨hpos, trivial⟩ rfl
  exact (emit_grounds hnode).bind fun _ _ => .pure trivial

theorem markdownText_grounds (t : Tools) (src : Text) (pos : Option Position) :
    Grounds S (markdownText t src pos) fun _ => True := by
  unfold markdownText
  split
  · exact .pure trivial
  · exact .throw _

theorem markdownSource_grounds (id : Ident) :
    Grounds S (markdownSource id) fun (_, pos) => pos.isSome = true := by
  refine (argument_grounds id _).bind fun tok ⟨ts, hts⟩ => ?_
  dsimp only
  split
  · split
    · exact .unexpected _ _
    · split
      · exact .pure hts.pos
      · exact .fail _ _
  · split
    · exact .pure hts.pos
    · exact .unexpected _ _
  · exact .unexpected _ _

section Contents
variable {t : Tools} (ht : t.Grounded S) {convert : Text → Text → ParseM Fragment}
  (hc : ∀ data file, S data → Grounds S (convert data file) (Fragment.Grounded S))
include ht hc

theorem freshContent_grounds (name : Text) (pos : Option Position) :
    Grounds S (freshContent t name pos convert) (Fragment.Grounded S) :=
  (readContent_grounds ht name pos).bind fun found hfound => hc found.1 found.2 hfound

/-- What comes from the cache was grounded when it was put there. -/
theorem cachedContent_grounds (kind : ContentKind) (name : Text) (pos : Option Position) :
    Grounds S (cachedContent t kind name pos convert) (Fragment.Grounded S) := by
  refine (cacheKey_grounds kind name).bind fun found hfound => ?_
  split
  · exact freshContent_grounds ht hc name pos
  · rename_i cache key
    have hcache := hfound cache key rfl
    split
    · rename_i fragment hf
      refine (note_grounds _ _).bind fun _ _ => .pure ?_
      obtain ⟨e, he, rfl⟩ := Option.map_eq_some_iff.mp hf
      exact hcache e (List.mem_of_find?_eq_some he)
    · refine (note_grounds _ _).bind fun _ _ => ?_
      refine (freshContent_grounds ht hc name pos).bind fun fragment hf => ?_
      refine Grounds.bind (.modify fun s hs => ⟨hs.tokens, hs.stop, hs.last, hs.sink, hs.injects, ?_⟩)
        fun _ _ => .pure hf
      intro c hcs e he
      obtain ⟨c₀, hc₀, rfl⟩ := Option.map_eq_some_iff.mp hcs
      rcases List.mem_cons.mp he with rfl | he
      · exact hf
      · exact hs.cache c₀ hc₀ e (List.mem_filter.mp he).1

end Contents

/-- Writes what a fragment holds. -/
theorem emitFragment_grounds {m : ParseM Fragment} (h : Grounds S m (Fragment.Grounded S)) : Grounds S (do
    emit (← m).nodes
    return Outcome.next) fun _ => True :=
  h.bind fun _ hf => (emit_grounds hf.nodes).bind fun _ _ => .pure trivial

theorem text_grounded {pos : Option Position} (hpos : pos.isSome = true) (data : Text) :
    Fragment.Grounded S { nodes := [.text pos data] } :=
  ⟨AllGrounded.nil.leaf (n := .text pos data) ⟨hpos, trivial⟩ rfl, by simp⟩

section Files
variable {t : Tools} (ht : t.Grounded S)
include ht

theorem htmlFile_grounds (cached : Bool) (id : Ident) : Grounds S (htmlFile cached t id) fun _ => True := by
  refine (pathArgument_grounds id).bind fun ⟨name, pos⟩ hpos => ?_
  dsimp only
  split
  · exact laterContent_grounds name hpos false
  · refine emitFragment_grounds (cachedContent_grounds ht ?_ .html name pos)
    exact fun data _ _ => .pure (text_grounded hpos data)

theorem markdownFile_grounds (cached : Bool) (id : Ident) :
    Grounds S (markdownFile cached t id) fun _ => True := by
  refine (pathArgument_grounds id).bind fun ⟨name, pos⟩ hpos => ?_
  dsimp only
  split
  · exact laterContent_grounds name hpos true
  · refine emitFragment_grounds (cachedContent_grounds ht ?_ .markdown name pos)
    exact fun data _ _ => (markdownText_grounds t data pos).bind fun _ _ => .pure (text_grounded hpos _)

omit ht in
theorem markdown_grounds (t : Tools) (id : Ident) : Grounds S (markdown t id) fun _ => True := by
  refine (markdownSource_grounds id).bind fun ⟨src, pos⟩ hpos => ?_
  refine (skip_grounds _).bind fun _ _ => ?_
  refine (markdownText_grounds t src pos).bind fun _ _ => ?_
  exact (emitText_grounds _ hpos).bind fun _ _ => .pure trivial

theorem embedTemplate_grounds (pos : Option Position) {src : Text} (hsrc : S src) (file : Text) :
    Grounds S (embedTemplate t pos src file) (Fragment.Grounded S) := by
  refine Grounds.get.bind fun s _ => ?_
  refine .guard fun _ => ?_
  exact (note_grounds _ _).bind fun _ _ => ht.embed file src hsrc

theorem templateFile_grounds (cached : Bool) (id : Ident) :
    Grounds S (templateFile cached t id) fun _ => True := by
  have hwrite (fragment : Fragment) (hf : fragment.Grounded S) : Grounds S (do
      declare fun d => fragment.injects.foldl Declarations.addInject
        (fragment.imports.foldl Declarations.addImport d)
      emit fragment.nodes
      return Outcome.next) fun _ => True := by
    refine (declare_grounds fun d hd => ?_).bind fun _ _ => ?_
    · exact not_mem_takenOver hf.injects hd
    · exact (emit_grounds hf.nodes).bind fun _ _ => .pure trivial
  have hembed (pos : Option Position) (data file : Text) (hdata : S data) :=
    embedTemplate_grounds ht pos hdata file
  refine (pathArgument_grounds id).bind fun ⟨name, pos⟩ _ => ?_
  dsimp only
  split
  · exact (cachedContent_grounds ht (hembed pos) _ name pos).bind hwrite
  · exact (freshContent_grounds ht (hembed pos) name pos).bind hwrite

end Files

/-- Every directive of the language leads from grounded states to grounded states. -/
theorem builtin_grounds {d : Directive} (hd : d ∈ builtinDirectives) {t : Tools} (ht : t.Grounded S)
    {id : Ident} (hid : id.pos.isSome = true) : Grounds S (d.run t id) fun _ => True := by
  simp only [builtinDirectives, List.mem_cons, List.not_mem_nil, or_false] at hd
  rcases hd with rfl | rfl | rfl | rfl | rfl | rfl | rfl | rfl | rfl | rfl | rfl | rfl | rfl | rfl |
    rfl | rfl | rfl | rfl | rfl | rfl | rfl | rfl | rfl
  · exact model_grounds id
  · exact viewName_grounds id
  · exact parameter_grounds id
  · exact parameter_grounds id
  · exact use_grounds id
  · exact inject_grounds id
  · exact codeSection_grounds id
  · exact codeSection_grounds id
  · exact codeSection_grounds id
  · exact forLoop_grounds ht hid
  · exact whileLoop_grounds ht hid
  · exact condition_grounds ht hid
  · exact .fail _ _
  · exact defineSection_grounds ht hid
  · exact renderSection_grounds ht hid
  · exact renderBody_grounds hid
  · exact htmlFile_grounds ht true id
  · exact htmlFile_grounds ht false id
  · exact templateFile_grounds ht true id
  · exact templateFile_grounds ht false id
  · exact markdown_grounds t id
  · exact markdownFile_grounds ht true id
  · exact markdownFile_grounds ht false id

end Directive

/-! ## Raw text -/

namespace Text

/-- A character with the small letter `s` is folded to it. -/
theorem foldChar_of_toLower {c : Char} (h : toLower c = 's') : foldChar c = 's' := by
  rcases eq_or_exists_run (by decide) h with rfl | ⟨run, hrun, hmaps, himage⟩
  · decide +kernel
  · have hall : lowerRuns.all (fun run => run.lo = 65 && run.image = 97 || 115 < run.image ||
        run.image + (run.hi - run.lo) < 115) = true := by decide +kernel
    have hrun := List.all_eq_true.mp hall run hrun
    have himage : run.image + (c.toNat - run.lo) = 115 := himage
    simp only [Run.maps, Bool.and_eq_true, Bool.or_eq_true, decide_eq_true_eq] at hrun hmaps
    have hcode : c.toNat = 83 := by omega
    have hc : c = 'S' := Char.toNat_inj.mp hcode
    rw [hc]
    decide +kernel

/-- The bytes at which literals and groups start. -/
def leads : Text := utf8 "\"`'0123456789([\x7b"

theorem head_folded_of_lead {b : UInt8} (hb : b ∈ leads) (t : Text) : (folded (b :: t)).head? ≠ some 's' := by
  have hall : leads.all (fun b => String.utf8EncodeChar (Char.ofNat b.toNat) = [b] &&
      foldChar (Char.ofNat b.toNat) ≠ 's') = true := by decide +kernel
  have hlead := List.all_eq_true.mp hall b hb
  simp only [Bool.and_eq_true, decide_eq_true_eq] at hlead
  have hpieces := pieces_encode (Char.ofNat b.toNat) t
  rw [hlead.1, List.singleton_append] at hpieces
  simpa [folded, runes, hpieces, Piece.rune] using hlead.2

/-- The name of raw text starts with the letter `s`. -/
theorem head_folded_of_isRawText {name : Text} (h : Registry.standard.isRawText name = true) :
    (folded name).head? = some 's' ∧ 1 < (runes name).length := by
  have hmem : lower name ∈ (defaultRawTextTags.map lower).eraseDups := by
    have hmem := List.contains_iff_mem.mp h
    simpa [Registry.standard, tagSet, sort] using hmem
  obtain ⟨tag, htag, heq⟩ := List.mem_map.mp (List.mem_eraseDups.mp hmem)
  have hall : defaultRawTextTags.all (fun tag => (runes (lower tag)).head? = some 's' &&
      1 < (runes (lower tag)).length) = true := by decide +kernel
  have htag := List.all_eq_true.mp hall tag htag
  simp only [Bool.and_eq_true, decide_eq_true_eq, heq] at htag
  refine ⟨?_, by simpa [length_runes_lower] using htag.2⟩
  have hhead := htag.1
  rw [lower, runes_ofRunes, List.head?_map] at hhead
  obtain ⟨c, hc, hlower⟩ := Option.map_eq_some_iff.mp hhead
  rw [folded, List.head?_map, hc, Option.map_some, foldChar_of_toLower hlower]

end Text

/-- A literal starts at one of these bytes. -/
theorem Shape.Leaf.exists_lead {kind : LiteralKind} {raw rest : Text} (h : Leaf (.literal kind) raw rest) :
    ∃ b t, raw = b :: t ∧ b ∈ Text.leads := by
  generalize hshape : Shape.literal kind = s at h
  cases h with
  | string | rawString | rune => exact ⟨_, _, rfl, by decide +kernel⟩
  | number hnumber =>
    obtain ⟨b, t, rfl, hb⟩ := hnumber.startsDigit
    refine ⟨b, t, rfl, ?_⟩
    have hall : ∀ n : Fin 256, isDecimal (UInt8.ofNat n.val) = true → UInt8.ofNat n.val ∈ Text.leads := by
      decide +kernel
    simpa using hall ⟨b.toNat, b.toNat_lt⟩ (by simpa using hb)
  | ident | punct => cases hshape

/-- Groups and literals spell no name of raw text, and neither does a single character. -/
theorem Token.continuesTagName_of_rawText {S : Text → Prop} {name : Text} {t : Token} {ts : List Token}
    (hname : Registry.standard.isRawText name = true) (hts : Token.ReadFrom S (t :: ts))
    (hsame : Text.sameFold t.brief name = true) : t.continuesTagName = true := by
  obtain ⟨hhead, hlength⟩ := Text.head_folded_of_isRawText hname
  have hbrief : (Text.folded t.brief).head? = some 's' := by rw [beq_iff_eq.mp hsame, hhead]
  cases t with
  | ident => rfl
  | punct p =>
    have hpieces := Text.pieces_encode p.char []
    rw [List.append_nil] at hpieces
    rw [← Text.length_runes_of_sameFold hsame, Token.brief, Text.runes, hpieces] at hlength
    exact absurd hlength (by simp [Text.pieces, Text.piecesFrom])
  | literal l =>
    obtain ⟨rest, hleaf⟩ := hts.leaf (.head _)
    obtain ⟨b, t, hraw, hb⟩ := hleaf.exists_lead
    rw [Token.brief, hraw] at hbrief
    exact absurd hbrief (Text.head_folded_of_lead hb t)
  | group f cs =>
    have hdelim := (hts.grounded (.head _)).delimited f cs rfl
    obtain ⟨b, hopening, hb⟩ : ∃ b, f.delim.opening = [b] ∧ b ∈ Text.leads := by
      cases hd : f.delim with
      | none => exact absurd hd hdelim
      | _ => exact ⟨_, rfl, by decide +kernel⟩
    rw [Token.brief, hopening, List.singleton_append, List.cons_append] at hbrief
    exact absurd hbrief (Text.head_folded_of_lead hb _)

/-- The environment element leaves its children or nothing. -/
theorem Environment.run_grounded {S : Text → Prop} {c : ElementContext} {ns : List Node}
    (hc : AllGrounded S c.children) (h : run c = .ok (some ns)) : AllGrounded S ns := by
  obtain ⟨includes, excludes, -, -, -, hnodes⟩ := run_eq_ok_iff.mp h
  cases hnodes
  split
  · exact hc
  · exact .nil

theorem Registry.standard_grounded (S : Text → Prop) : standard.Grounded S where
  tagHooks := rfl
  elementHooks := by
    intro h hh c ns hc hn
    rw [List.mem_singleton.mp hh] at hn
    exact Environment.run_grounded hc hn
  rawText := fun _ _ _ hname hts hsame => Token.continuesTagName_of_rawText hname hts hsame
  directives := fun d hd t ht id hid => Directive.builtin_grounds hd ht hid

end Atmark
