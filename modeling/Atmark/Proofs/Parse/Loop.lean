import Atmark.Proofs.Cache.Meaning
import Atmark.Proofs.Parse.Contract

/-! Every function of the parser keeps a contract. What it reads is a rest of the tokens it stands at, and
what it reads inside a group weighs less than the group, so the turns it is given are enough; what it reports
is placed in the file. The tools of a run serve a contract if the loop they go on with and the templates they
embed keep it (`Serves`); then one more turn of the loop keeps it too (`loop_meets`). -/
namespace Atmark
open Node ParseM

namespace Token

theorem eq_of_action_tag {markup statement : Bool} {tok : Token} {p : Punct}
    (h : tok.action markup statement = .tag p) : tok = .punct p := by
  cases tok with
  | punct q =>
    simp only [Token.action] at h
    repeat' split at h
    all_goals cases h
    rfl
  | _ =>
    simp only [Token.action] at h
    repeat' split at h
    all_goals cases h

theorem char_of_action_tag {markup statement : Bool} {tok : Token} {p : Punct}
    (h : tok.action markup statement = .tag p) : p.char = '<' := by
  obtain rfl := eq_of_action_tag h
  simp only [action] at h
  split at h
  · cases h
  · split at h
    · assumption
    · repeat' split at h
      all_goals cases h

theorem eq_of_action_code {markup statement : Bool} {tok : Token} {p : Punct}
    (h : tok.action markup statement = .code p) : tok = .punct p := by
  cases tok with
  | punct q =>
    simp only [Token.action] at h
    repeat' split at h
    all_goals cases h
    all_goals rfl
  | _ =>
    simp only [Token.action] at h
    repeat' split at h
    all_goals cases h

end Token

namespace Contract
variable {C : Contract} {I : State → Prop} {ts us : List Token} {α : Type} {Q : α → State → Prop}

/-! ## Steps that read tokens -/

/-- The closing tag that a step found is placed in the file. -/
def Closes (C : Contract) (c : Option ClosingTag) : Prop := ∀ x ∈ c, Token.Placed C.tokens x.pos

theorem Closes.none : C.Closes .none := by simp [Closes]

theorem Closes.some {c : ClosingTag} (h : Token.Placed C.tokens c.pos) : C.Closes (.some c) := by
  simpa [Closes] using h

/-- A group of the file that `n` turns are enough for. -/
structure Inner (C : Contract) (n : Nat) (f : Frame) (cs : List Token) : Prop where
  part : Token.Part C.tokens cs
  placed : Token.Placed C.tokens f.pos
  light : Token.weights cs < n

theorem inner_of_mem {n : Nat} {f : Frame} {cs : List Token} (hp : Token.Part C.tokens ts)
    (hw : Token.weights ts ≤ n) (h : .group f cs ∈ ts) : C.Inner n f cs :=
  ⟨hp.group h, hp.placed h, Nat.lt_of_lt_of_le (Token.weights_group_lt h) hw⟩

section Framed
variable (hI : Framed I)
include hI

theorem closingTag_meets {lt : Token} :
    Meets C.error (C.At I (lt :: ts)) closingTag fun c s =>
      Token.Placed C.tokens c.pos ∧ C.From I ts s := by
  refine at_intro fun hp => ?_
  have hlt : Token.Placed C.tokens lt.pos := hp.placed (.head _)
  refine peek_meets ?_
  refine (skip_meets hI 2).bind fun _ => ?_
  refine rest_meets ?_
  refine (skip_meets hI _).bind fun _ => ?_
  generalize hn : (tagNameTokens (List.drop 2 (lt :: ts))).length = k
  have hsuffix : List.drop k (List.drop 2 (lt :: ts)) <:+ ts :=
    (List.drop_suffix _ _).trans (List.drop_suffix 1 ts)
  refine at_intro fun hp' => ?_
  refine peek_meets ?_
  split
  · exact .fail (expect_fault hlt (by simp))
  · rename_i gt hgt
    refine (skip_meets hI 1).bind fun _ => ?_
    split
    · exact .pure fun s hs => ⟨hlt, hs.from.mono ((List.drop_suffix _ _).trans hsuffix)⟩
    · exact unexpected_meets (hp'.placed (List.mem_of_head? hgt)) _

theorem commentFrom_meets {pos : Option Position} (hpos : Token.Placed C.tokens pos) (ts : List Token) :
    Meets C.error (C.At I ts) (commentFrom pos ts) fun _ => C.From I ts := by
  induction ts with
  | nil => exact (checkStop_meets hI).bind fun _ => .fail (expect_fault hpos (by simp))
  | cons tok ts ih =>
    refine (checkStop_meets hI).bind fun _ => ?_
    split
    · refine (skip_meets hI 3).bind fun _ => .pure fun s hs => ?_
      exact hs.from.mono (List.drop_suffix _ _)
    · refine (skip_meets hI 1).bind fun _ => ?_
      refine ih.bind fun _ => .pure fun s hs => ?_
      exact hs.mono (List.suffix_cons tok ts)

theorem comment_meets {lt : Punct} :
    Meets C.error (C.At I (.punct lt :: ts)) (comment lt) fun _ => C.From I ts := by
  refine at_intro fun hp => ?_
  refine .look fun x _ => ?_
  refine (skip_meets hI 4).bind fun _ => ?_
  refine rest_meets ?_
  refine (commentFrom_meets hI (hp.placed (.head _)) _).bind fun body => ?_
  refine from_intro fun us hus _ => ?_
  refine (emitText_meets hI _ _).post fun _ s hs => hs.from.mono (hus.trans ?_)
  exact List.drop_suffix 3 ts

/-- The tokens up to the next braces are tokens that were there, and so are the braces. -/
theorem untilBrace_meets {pos : Option Position} (hpos : Token.Placed C.tokens pos) (what : String)
    (ts : List Token) :
    Meets C.error (C.At I ts) (untilBrace pos what ts) fun r s =>
      ((∀ t ∈ r.1, t ∈ ts) ∧ .group r.2.1 r.2.2 ∈ ts) ∧ C.From I ts s := by
  induction ts with
  | nil => exact (checkStop_meets hI).bind fun _ => .fail (expect_fault hpos (by simp))
  | cons tok ts ih =>
    have hmore : Meets C.error (C.At I ts)
        (untilBrace pos what ts >>= fun found => pure (tok :: found.1, found.2)) fun r s =>
          ((∀ t ∈ r.1, t ∈ tok :: ts) ∧ .group r.2.1 r.2.2 ∈ tok :: ts) ∧ C.From I (tok :: ts) s := by
      refine ih.bind fun found => .pure fun s hs => ?_
      obtain ⟨⟨hbefore, hgroup⟩, hfrom⟩ := hs
      refine ⟨⟨?_, .tail _ hgroup⟩, hfrom.mono (List.suffix_cons tok ts)⟩
      intro t ht
      rcases List.mem_cons.mp ht with rfl | ht
      · exact .head _
      · exact .tail _ (hbefore t ht)
    refine (checkStop_meets hI).bind fun _ => ?_
    refine (skip_meets hI 1).bind fun _ => ?_
    refine (setLast_meets hI _).bind fun _ => ?_
    split
    · split
      · exact .pure fun s hs =>
          ⟨⟨by simp, .head _⟩, hs.from.mono (List.suffix_cons _ ts)⟩
      · exact hmore
    · exact hmore

end Framed

end Contract

/-! ## Tools -/

/-- The directives that include a template. -/
def Directive.templateNames : List Text := [utf8 "rusthtmlfile", utf8 "rusthtmlfile_nocache"]

namespace Contract
variable {C : Contract} {ts us : List Token}

/-- The tools of a run with `n` more turns keep the contract. -/
structure Serves (C : Contract) (t : Tools) (n : Nat) : Prop where
  settings : t.settings = C.settings
  turns : t.turns = n
  resume : ∀ ts, Token.weights ts < n →
    Meets C.error (C.At C.inv ts) t.resume fun c s => C.Closes c ∧ C.From C.inv ts s
  embed : ∀ {name : Text} {pos : Option Position} {file data : Text}, Token.Placed C.tokens pos →
    Directive.Names Directive.templateNames C.tokens name →
    C.settings.Leads C.path name file data → ∀ ts,
    Meets C.error (C.At C.inv ts) (Directive.embedTemplate t pos data file) fun f s =>
      Postpone C.later f.nodes ∧ C.At (C.pending f) ts s

theorem note_meets {message : String} (hm : message ≠ "directive") (fields : List (String × Text)) :
    Meets C.error (C.At C.inv ts) (ParseM.note message fields) fun _ => C.At C.inv ts :=
  .modify fun _ hs => ⟨⟨hs.1.path, hs.1.includers, hs.1.part, hs.1.stop, hs.1.sink,
    C.note fields hm hs.1.inv⟩, hs.2⟩

variable {t : Tools} {n : Nat} (ht : C.Serves t n)
include ht

theorem parse_meets (hw : Token.weights ts < n) :
    Meets C.error (C.At C.inv ts) t.parse fun c s => C.Closes c ∧ C.From C.inv ts s :=
  (checkStop_meets C.framed).bind fun _ => ht.resume ts hw

theorem region_meets {f : Frame} {cs : List Token} (hcs : C.Inner n f cs) (markup : Bool) :
    Meets C.error (C.At C.inv ts) (t.region f cs markup) fun ns s =>
      Postpone C.later ns ∧ C.At C.inv ts s := by
  refine .get fun outer ho => .set ?_
  -- the run goes into the group and comes back to the tokens after it
  refine Meets.bind ((parse_meets ht hcs.light).pre ?_) fun closing => .given fun hc => ?_
  · rintro _ rfl
    exact ⟨⟨ho.1.path, ho.1.includers, hcs.part, fun _ => hcs.placed, .nil,
      C.framed _ _ ho.1.inv rfl rfl rfl⟩, rfl⟩
  refine .get fun inner hi => .set ?_
  cases closing with
  | some c => exact .fail (expect_fault (hc c rfl) (by simp))
  | none =>
    refine .pure ?_
    rintro _ rfl
    exact ⟨hi.1.sink.reverse, ⟨hi.1.path, hi.1.includers, ho.1.part, ho.1.stop, ho.1.sink,
      C.framed _ _ hi.1.inv rfl rfl rfl⟩, ho.2⟩

theorem group_meets {f : Frame} {cs : List Token} (hcs : C.Inner n f cs) :
    Meets C.error (C.At C.inv ts) (t.group f cs) fun _ => C.At C.inv ts := by
  refine .look fun _ _ => ?_
  split
  · refine (emitText_meets C.framed _ _).bind fun _ => ?_
    refine .get fun outer ho => .set ?_
    refine Meets.bind ((parse_meets ht hcs.light).pre ?_) fun closing => .given fun hc => ?_
    · rintro _ rfl
      exact ⟨⟨ho.1.path, ho.1.includers, hcs.part, fun _ => hcs.placed, ho.1.sink,
        C.framed _ _ ho.1.inv rfl rfl rfl⟩, rfl⟩
    refine Meets.bind (Q := fun _ => C.At C.inv ts) (.modify fun s hs => ?_) fun _ => ?_
    · exact ⟨⟨hs.1.path, hs.1.includers, ho.1.part, ho.1.stop, hs.1.sink,
        C.framed _ _ hs.1.inv rfl rfl rfl⟩, ho.2⟩
    cases closing with
    | some c => exact .fail (expect_fault (hc c rfl) (by simp))
    | none => exact emitText_meets C.framed _ _
  · refine (region_meets ht hcs false).bind fun children => .given fun hch => ?_
    exact emit_meets C.framed (.single trivial (by simpa [lists] using hch))

theorem code_meets {p : Punct} (hw : Token.weights (.punct p :: ts) ≤ n) :
    Meets C.error (C.At C.inv (.punct p :: ts)) (t.code p) fun _ => C.From C.inv ts := by
  have hpunct {us : List Token} (hus : us <:+ ts) :
      Meets C.error (C.At C.inv us) (emit [.punct p]) fun _ => C.From C.inv ts := by
    have hnode : Postpone C.later [.punct p] := .single trivial (by simp [lists])
    exact (emit_meets C.framed hnode).post fun _ _ hs => hs.from.mono hus
  refine at_intro fun hp => ?_
  refine (skip_meets C.framed 1).bind fun _ => ?_
  refine rest_meets ?_
  split
  · rename_i d a type f cs rest heq
    split
    · have hmem : .group f cs ∈ Token.punct p :: ts :=
        List.mem_of_mem_drop (i := 1) (heq ▸ by simp)
      refine (skip_meets C.framed 4).bind fun _ => ?_
      refine (region_meets ht (inner_of_mem hp hw hmem) false).bind fun children => .given fun hch => ?_
      have hnode : Postpone C.later [.closure type f children] :=
        .single trivial (by simpa [lists] using hch)
      refine (emit_meets C.framed hnode).post fun _ _ hs => ?_
      exact hs.from.mono (List.drop_suffix 4 ts)
    · exact hpunct List.suffix_rfl
  · exact hpunct List.suffix_rfl

/-! ## Expressions -/

theorem selectors_meets (ts : List Token) (hw : Token.weights ts ≤ n) :
    Meets C.error (C.At C.inv ts) (t.selectors ts) fun ns s =>
      Postpone C.later ns ∧ C.From C.inv ts s := by
  have hnone {ts : List Token} : Meets C.error (C.At C.inv ts) (pure []) fun ns s =>
      Postpone C.later ns ∧ C.From C.inv ts s := .pure fun s hs => ⟨.nil, hs.from⟩
  fun_induction Tools.selectors t ts with
  | case1 => exact (checkStop_meets C.framed).bind fun _ => hnone
  | case2 tok ts ihDot ihPath ihGroup =>
    have hselect (p : Punct) (m : Ident) (k : Nat) {us : List Token}
        (hus : us = (tok :: ts).drop k) (ih : Token.weights us ≤ n →
          Meets C.error (C.At C.inv us) (t.selectors us) fun ns s =>
            Postpone C.later ns ∧ C.From C.inv us s) :
        Meets C.error (C.At C.inv (tok :: ts)) (do
          skip k
          return .punct p :: .ident m :: (← t.selectors us)) fun ns s =>
            Postpone C.later ns ∧ C.From C.inv (tok :: ts) s := by
      have hsuffix : us <:+ tok :: ts := hus ▸ List.drop_suffix k _
      refine (skip_meets C.framed k).bind fun _ => ?_
      rw [← hus]
      refine (ih ((Token.weights_suffix hsuffix).trans hw)).bind fun ns => .given fun hns => ?_
      refine .pure fun s hs => ⟨?_, hs.mono hsuffix⟩
      exact .cons trivial (by simp [lists]) (.cons trivial (by simp [lists]) hns)
    refine at_intro fun hp => ?_
    have htok : Token.Placed C.tokens tok.pos := hp.placed (.head _)
    refine (checkStop_meets C.framed).bind fun _ => ?_
    split
    · exact hnone
    refine (setLast_meets C.framed _).bind fun _ => ?_
    split
    · split
      · split
        · split
          · exact hselect _ _ _ rfl ihDot
          · exact hnone
        · exact hnone
      · split
        · split
          · exact hnone
          · split
            · split
              · exact hselect _ _ _ rfl ihPath
              · exact hnone
            · exact hnone
        · split
          · split
            · exact .fail (expect_fault htok (by simp))
            · exact hnone
          · exact hnone
    · rename_i f cs _
      split
      · exact hnone
      · have hsuffix : ts <:+ .group f cs :: ts := List.suffix_cons _ ts
        refine (skip_meets C.framed 1).bind fun _ => ?_
        refine (region_meets ht (inner_of_mem hp hw (.head _)) false).bind fun children =>
          .given fun hch => ?_
        refine (ihGroup ((Token.weights_suffix hsuffix).trans hw)).bind fun ns => .given fun hns => ?_
        refine .pure fun s hs => ⟨?_, hs.mono hsuffix⟩
        exact .cons trivial (by simpa [lists] using hch) hns
    · exact hnone

theorem expressionFrom_meets (id : Ident) (hw : Token.weights ts ≤ n) :
    Meets C.error (C.At C.inv ts) (t.expressionFrom id) fun ns s =>
      Postpone C.later ns ∧ C.From C.inv ts s := by
  refine rest_meets ?_
  refine (selectors_meets ht ts hw).bind fun ns => .given fun hns => ?_
  exact .pure fun s hs => ⟨.cons trivial (by simp [lists]) hns, hs⟩

/-- An expression takes a token at least. -/
theorem expression_meets {tok : Token} (hw : Token.weights (tok :: ts) ≤ n) :
    Meets C.error (C.At C.inv (tok :: ts)) t.expression fun ns s =>
      Postpone C.later ns ∧ C.From C.inv ts s := by
  have hlight : Token.weights ts ≤ n := (Token.weights_tail_lt tok ts).le.trans hw
  have halone (p : Punct) : Meets C.error (C.At C.inv (tok :: ts)) (do skip 1; return [.punct p])
      fun ns s => Postpone C.later ns ∧ C.From C.inv ts s :=
    (skip_meets C.framed 1).bind fun _ => .pure fun s hs => ⟨.single trivial (by simp [lists]), hs.from⟩
  refine at_intro fun hp => ?_
  have htok : Token.Placed C.tokens tok.pos := hp.placed (.head _)
  refine rest_meets ?_
  split
  · rename_i heq
    cases heq
  · rename_i heq
    cases heq
    exact (skip_meets C.framed 1).bind fun _ => expressionFrom_meets ht _ hlight
  · rename_i heq
    cases heq
    split
    · split
      · split
        · rename_i id us
          split
          · refine (skip_meets C.framed 2).bind fun _ => ?_
            have hus : us <:+ .ident id :: us := List.suffix_cons _ us
            refine (expressionFrom_meets ht id ((Token.weights_suffix hus).trans hlight)).bind fun ns =>
              .given fun hns => ?_
            exact .pure fun s hs => ⟨.cons trivial (by simp [lists]) hns, hs.mono hus⟩
          · exact halone _
        · exact halone _
      · exact unexpected_meets htok _
    · exact unexpected_meets htok _

/-! ## Attributes -/

theorem valueExpression_meets {marker : Punct} (attr : Text)
    (hw : Token.weights (.punct marker :: ts) ≤ n) :
    Meets C.error (C.At C.inv (.punct marker :: ts)) (t.valueExpression marker attr) fun ns s =>
      Postpone C.later ns ∧ C.From C.inv ts s := by
  refine at_intro fun hp => ?_
  have hmarker : Token.Placed C.tokens marker.pos := hp.placed (.head _)
  refine (skip_meets C.framed 1).bind fun _ => ?_
  refine peek_meets ?_
  cases ts with
  | nil => exact .fail (expect_fault hmarker (by simp))
  | cons next us =>
    have hnext : Token.Placed C.tokens next.pos := hp.placed (.tail _ (.head _))
    have hlight : Token.weights (next :: us) ≤ n := (Token.weights_tail_lt _ _).le.trans hw
    have hus : us <:+ next :: us := List.suffix_cons next us
    have hexpression : Meets C.error (C.At C.inv (next :: us)) t.expression fun ns s =>
        Postpone C.later ns ∧ C.From C.inv (next :: us) s :=
      (expression_meets ht hlight).post fun _ _ h => ⟨h.1, h.2.mono hus⟩
    refine .guard (fun _ => expect_fault hmarker (by simp)) fun _ => ?_
    split
    · exact hexpression
    · refine (skip_meets C.framed 1).bind fun _ => .pure fun s hs => ?_
      exact ⟨.single trivial (by simp [lists]), hs.from.mono hus⟩
    · rename_i f cs
      split
      · refine (skip_meets C.framed 1).bind fun _ => ?_
        refine (region_meets ht (inner_of_mem hp hw (.tail _ (.head _))) false).bind fun expr =>
          .given fun hexpr => ?_
        refine .guard (fun _ => expect_fault hnext (by simp)) fun _ => ?_
        exact .pure fun s hs => ⟨hexpr, hs.from.mono hus⟩
      · exact unexpected_meets hnext _
    · split
      · exact hexpression
      · exact unexpected_meets hnext _

/-- A value stands where its first token does. -/
def KeepsValue (C : Contract) (v : AttrValue) : Prop :=
  Token.Placed C.tokens v.pos ∧ Postpone C.later v.expr

theorem attrValue_meets (tag attr : Text) {tok : Token} (hw : Token.weights (tok :: ts) ≤ n) :
    Meets C.error (C.At C.inv (tok :: ts)) (t.attrValue tag attr tok ts) fun v s =>
      C.KeepsValue v ∧ C.From C.inv ts s := by
  refine at_intro fun hp => ?_
  have htok : Token.Placed C.tokens tok.pos := hp.placed (.head _)
  have hrun : Meets C.error (C.At C.inv (tok :: ts)) (do
      return (⟨tok.pos, ← Tools.unquotedValue tok ts, []⟩ : AttrValue)) fun v s =>
        C.KeepsValue v ∧ C.From C.inv ts s := by
    refine Meets.bind (Q := fun _ => C.From C.inv ts) ?_ fun v => .pure fun s hs => ⟨⟨htok, .nil⟩, hs⟩
    refine (skip_meets C.framed _).bind fun _ => .pure fun s hs => ?_
    exact hs.from.mono (List.drop_suffix (ts.takeWhile Token.continuesRun).length ts)
  unfold Tools.attrValue
  split
  · refine (skip_meets C.framed 1).bind fun _ => ?_
    split <;> exact .pure fun s hs => ⟨⟨htok, .nil⟩, hs.from⟩
  · exact hrun
  · rename_i p
    split
    · split
      · exact .fail (expect_fault htok (by simp))
      · rename_i us space _
        refine (skip_meets C.framed _).bind fun _ => .pure fun s hs => ⟨⟨htok, .nil⟩, ?_⟩
        exact hs.from.mono (List.drop_suffix (us.length + 1) ts)
    split
    · exact hrun
    split
    · refine (valueExpression_meets ht attr hw).bind fun expr => .given fun hexpr => ?_
      refine from_intro fun us hus _ => ?_
      refine (note_meets (by decide) _).bind fun _ => .pure fun s hs => ?_
      exact ⟨⟨htok, hexpr⟩, hs.from.mono hus⟩
    split
    · exact .fail (expect_fault htok (by simp))
    · exact unexpected_meets htok _
  · exact unexpected_meets htok _

/-- What has been read of a tag keeps the contract. -/
structure KeepsReading (C : Contract) (r : TagReading) : Prop where
  nodes : Postpone C.later r.nodes
  values : ∀ a ∈ r.attributes, ∀ v ∈ a.value, Token.Placed C.tokens v.pos

namespace KeepsReading
omit ht
variable {r : TagReading} (hr : C.KeepsReading r)
include hr

theorem withoutValue : C.KeepsReading r.withoutValue := by
  unfold TagReading.withoutValue
  split
  · exact hr
  · exact ⟨.cons trivial (by simp [TagReading.keyNode, lists]) hr.nodes, by simpa using hr.values⟩

theorem withValue (k : AttrKey) (equals : Option Position) {v : AttrValue} (hv : C.KeepsValue v) :
    C.KeepsReading (r.withValue k equals v) := by
  refine ⟨.cons trivial ?_ (.cons trivial (by simp [lists]) (.cons trivial ?_ hr.nodes)), ?_⟩
  · simpa [AttrValue.node, lists] using hv.2
  · simp [TagReading.keyNode, lists]
  · simpa [TagReading.withValue] using ⟨hv.1, hr.values⟩

theorem startKey (tok : Token) : C.KeepsReading (r.startKey tok) := by
  have h := hr.withoutValue
  unfold TagReading.startKey
  cases tok <;> exact ⟨h.nodes, h.values⟩

theorem addKey (tok : Token) : C.KeepsReading (r.addKey tok) := by
  unfold TagReading.addKey
  split
  · split
    · exact ⟨hr.nodes, hr.values⟩
    · exact hr.startKey tok
  · exact hr.startKey tok

end KeepsReading

/-- Every step takes a token, so as many steps as tokens are enough for the attributes of a tag. -/
theorem attributesWithin_meets {lt : Option Position} (hlt : Token.Placed C.tokens lt) (tag : Text)
    (k : Nat) {r : TagReading} (hr : C.KeepsReading r) (focus : Tools.TagFocus)
    (hk : ts.length < k) (hw : Token.weights ts ≤ n) :
    Meets C.error (C.At C.inv ts) (t.attributesWithin lt tag k r focus) fun out s =>
      C.KeepsReading out.1 ∧ C.From C.inv ts s := by
  induction k generalizing ts r focus with
  | zero => omega
  | succ k ih =>
    refine at_intro fun hp => ?_
    refine (checkStop_meets C.framed).bind fun _ => ?_
    refine rest_meets ?_
    cases ts with
    | nil => exact .fail (expect_fault hlt (by simp))
    | cons tok ts =>
      have htok : Token.Placed C.tokens tok.pos := hp.placed (.head _)
      have hlight : Token.weights ts ≤ n := (Token.weights_tail_lt tok ts).le.trans hw
      have hmore {r : TagReading} (hr : C.KeepsReading r) (focus : Tools.TagFocus) {us : List Token}
          (hus : us <:+ ts) : Meets C.error (C.At C.inv us) (t.attributesWithin lt tag k r focus)
            fun out s => C.KeepsReading out.1 ∧ C.From C.inv (tok :: ts) s := by
        have hlength : us.length < k := by
          have := hus.length_le
          simp only [List.length_cons] at hk
          omega
        refine (ih hr focus hlength ((Token.weights_suffix hus).trans hlight)).post fun _ _ h => ?_
        exact ⟨h.1, h.2.mono (hus.trans (List.suffix_cons tok ts))⟩
      have hend {r : TagReading} (hr : C.KeepsReading r) (stop : TagEnd) (j : Nat) :
          Meets C.error (C.At C.inv (tok :: ts)) (do skip j; return (r, stop)) fun out s =>
            C.KeepsReading out.1 ∧ C.From C.inv (tok :: ts) s :=
        (skip_meets C.framed j).bind fun _ => .pure fun s hs =>
          ⟨hr, hs.from.mono (List.drop_suffix j _)⟩
      refine (setLast_meets C.framed _).bind fun _ => ?_
      split
      · refine (attrValue_meets ht tag _ hw).bind fun v => .given fun hv => ?_
        exact from_intro fun us hus _ => hmore (hr.withValue _ _ hv) .name hus
      · split
        · split
          · exact hend hr.withoutValue _ 1
          split
          · split
            · exact hend hr.withoutValue _ 2
            · exact .fail (expect_fault htok (by simp))
          split
          · split
            · exact .fail (expect_fault htok (by simp))
            · exact (skip_meets C.framed 1).bind fun _ => hmore hr _ List.suffix_rfl
          split
          · exact (skip_meets C.framed 1).bind fun _ => hmore (hr.addKey _) _ List.suffix_rfl
          · exact unexpected_meets htok _
        · exact (skip_meets C.framed 1).bind fun _ => hmore (hr.addKey _) _ List.suffix_rfl
        · split
          · exact (skip_meets C.framed 1).bind fun _ => hmore (hr.startKey _) _ List.suffix_rfl
          · exact unexpected_meets htok _
        · exact unexpected_meets htok _

theorem attributes_meets {lt : Option Position} (hlt : Token.Placed C.tokens lt) (tag : Text)
    (hw : Token.weights ts ≤ n) :
    Meets C.error (C.At C.inv ts) (t.attributes lt tag) fun out s =>
      C.KeepsReading out.1 ∧ C.From C.inv ts s := by
  refine rest_meets ?_
  exact attributesWithin_meets ht hlt tag _ ⟨.nil, by simp⟩ .name (Nat.lt_succ_self _) hw

/-! ## Directives and hooks -/

omit ht

/-- A directive has been recorded, and has still to be run with the tokens after it. -/
def Directed (C : Contract) (id : Ident) (ts : List Token) (s : State) : Prop :=
  ∃ s₀, C.At C.inv ts s₀ ∧ s = s₀.directed id

/-- An element as it is shown to the hooks. -/
structure Shows (C : Contract) (c : ElementContext) : Prop where
  placed : Token.Placed C.tokens c.pos
  values : ∀ a ∈ c.attributes, ∀ v ∈ a.value, Token.Placed C.tokens v.pos
  start : Postpone C.later c.start
  children : Postpone C.later c.children
  stop : Postpone C.later c.stop

theorem Shows.default {c : ElementContext} (h : C.Shows c) : Postpone C.later c.default :=
  (h.start.append h.children).append h.stop

/-- The directives and the hooks of a registry keep the contract, and no hook replaces tags. -/
structure Obeys (C : Contract) (r : Registry) : Prop where
  tagHooks : r.tagHooks = []
  elementError : ∀ h ∈ r.elementHooks, ∀ c e, C.Shows c → h.run c = .error e →
    C.error (e.withPosition c.pos)
  elementNodes : ∀ h ∈ r.elementHooks, ∀ c ns, C.Shows c → h.run c = .ok (some ns) →
    Postpone C.later ns
  directives : ∀ d ∈ r.directives, ∀ {t : Tools} {n : Nat}, C.Serves t n → ∀ {id : Ident}
    {ts : List Token}, id.name = d.name → Token.Part C.tokens (.ident id :: ts) →
    Token.weights ts ≤ n → Meets C.error (C.Directed id ts) (d.run t id) fun _ => C.From C.inv ts

variable {r : Registry} (hr : C.Obeys r)
include hr

theorem tagNodes_meets {c : TagContext} (h : Postpone C.later c.default) :
    Meets C.error (C.At C.inv ts) (r.tagNodes c) fun ns s =>
      Postpone C.later ns ∧ C.At C.inv ts s := by
  unfold Registry.tagNodes
  rw [hr.tagHooks]
  exact .pure fun s hs => ⟨h, hs⟩

theorem elementNodes_meets {c : ElementContext} (h : C.Shows c) :
    Meets C.error (C.At C.inv ts) (r.elementNodes c) fun ns s =>
      Postpone C.later ns ∧ C.At C.inv ts s := by
  have hdefault : Meets C.error (C.At C.inv ts) (pure c.default) fun ns s =>
      Postpone C.later ns ∧ C.At C.inv ts s := .pure fun s hs => ⟨h.default, hs⟩
  unfold Registry.elementNodes
  split
  · exact hdefault
  · rename_i hook hfilter
    have hmem : hook ∈ r.elementHooks :=
      (List.mem_filter.mp (hfilter ▸ List.mem_singleton_self hook)).1
    split
    · rename_i e he
      exact .throw (hr.elementError hook hmem c e h he)
    · exact hdefault
    · rename_i ns hns
      refine (note_meets (by decide) _).bind fun _ => .pure fun s hs => ?_
      exact ⟨hr.elementNodes hook hmem c ns h hns, hs⟩
  · exact .fail (expect_fault h.placed (by simp))

include ht

theorem runDirective_meets {d : Directive} (hd : d ∈ r.directives) (marker : Option Position) {id : Ident}
    (hid : id.name = d.name) (hw : Token.weights (.ident id :: ts) ≤ n) :
    Meets C.error (C.At C.inv (.ident id :: ts)) (Registry.runDirective t d marker id)
      fun _ => C.From C.inv ts := by
  have hlight : Token.weights ts ≤ n := (Token.weights_tail_lt _ ts).le.trans hw
  refine at_intro fun hp => ?_
  refine (skip_meets C.framed 1).bind fun _ => ?_
  refine Meets.bind (Q := fun _ => C.Directed id ts) (.modify fun s hs => ⟨s, hs, rfl⟩) fun _ => ?_
  refine (hr.directives d hd ht hid hp hlight).bind fun out => ?_
  refine from_intro fun us hus _ => ?_
  split
  · exact .pure fun s hs => hs.from.mono hus
  · exact .modify fun s hs => ⟨hs.1.frame C.framed rfl rfl rfl rfl rfl rfl rfl, hs.from.2.trans hus⟩
  · refine (expressionFrom_meets ht id ((Token.weights_suffix hus).trans hlight)).bind fun ns =>
      .given fun hns => ?_
    refine from_intro fun vs hvs _ => ?_
    have hnode : Postpone C.later [.write marker ns] := .single trivial (by simpa [lists] using hns)
    exact (emit_meets C.framed hnode).post fun _ _ hs => hs.from.mono (hvs.trans hus)

/-! ## The marker -/

theorem afterMarker_meets (marker : Option Position) {next : Token}
    (hw : Token.weights (next :: ts) ≤ n) :
    Meets C.error (C.At C.inv (next :: ts)) (r.afterMarker t marker next) fun _ => C.From C.inv ts := by
  refine at_intro fun hp => ?_
  have hnext : Token.Placed C.tokens next.pos := hp.placed (.head _)
  have hwrite {us : List Token} {expr : List Node} (hexpr : Postpone C.later expr) (hus : us <:+ ts) :
      Meets C.error (C.At C.inv us) (emit [.write marker expr]) fun _ => C.From C.inv ts := by
    have hnode : Postpone C.later [.write marker expr] :=
      .single trivial (by simpa [lists] using hexpr)
    exact (emit_meets C.framed hnode).post fun _ _ hs => hs.from.mono hus
  have hexpression : Meets C.error (C.At C.inv (next :: ts)) (do emit [.write marker (← t.expression)])
      fun _ => C.From C.inv ts := by
    refine (expression_meets ht hw).bind fun expr => .given fun hexpr => ?_
    exact from_intro fun us hus _ => hwrite hexpr hus
  unfold Registry.afterMarker
  split
  · split
    · refine (skip_meets C.framed 1).bind fun _ => ?_
      exact (emitText_meets C.framed _ _).post fun _ _ hs => hs.from
    split
    · exact hexpression
    · exact unexpected_meets hnext _
  · rename_i id
    split
    · rename_i d hfind
      refine runDirective_meets ht hr (List.mem_of_find?_eq_some hfind) marker ?_ hw
      simpa [eq_comm] using List.find?_some hfind
    · exact hexpression
  · rename_i l
    refine (skip_meets C.framed 1).bind fun _ => ?_
    exact hwrite (.single trivial (by simp [lists])) List.suffix_rfl
  · rename_i f cs
    have hcs : C.Inner n f cs := inner_of_mem hp hw (.head _)
    split
    · refine (skip_meets C.framed 1).bind fun _ => ?_
      refine (region_meets ht hcs false).bind fun expr => .given fun hexpr => ?_
      exact .guard (fun _ => expect_fault hnext (by simp)) fun _ => hwrite hexpr List.suffix_rfl
    split
    · refine (skip_meets C.framed 1).bind fun _ => ?_
      refine (region_meets ht hcs false).bind fun nodes => .given fun hnodes => ?_
      refine (emit_meets C.framed hnodes).bind fun _ => ?_
      have hstop : Postpone C.later [.punct ⟨f.pos, [], ';'⟩] := .single trivial (by simp [lists])
      split
      · exact (emit_meets C.framed hstop).post fun _ _ hs => hs.from
      · exact .pure fun s hs => hs.from
    · exact unexpected_meets hnext _

theorem marker_meets {m : Token} (hw : Token.weights (m :: ts) ≤ n) :
    Meets C.error (C.At C.inv (m :: ts)) (r.marker t m) fun _ => C.From C.inv ts := by
  refine at_intro fun hp => ?_
  have hm : Token.Placed C.tokens m.pos := hp.placed (.head _)
  have hafter : Meets C.error (C.At C.inv ts) (r.gluedToMarker t m.pos) fun _ => C.From C.inv ts := by
    refine peek_meets ?_
    cases ts with
    | nil => exact .fail (expect_fault hm (by simp))
    | cons next us =>
      refine .guard (fun _ => expect_fault hm (by simp)) fun _ => ?_
      refine (setLast_meets C.framed _).bind fun _ => ?_
      refine (afterMarker_meets ht hr m.pos ((Token.weights_tail_lt _ _).le.trans hw)).post ?_
      exact fun _ _ hs => hs.mono (List.suffix_cons next us)
  refine (skip_meets C.framed 1).bind fun _ => ?_
  refine .look fun x _ => ?_
  split
  · exact (emitText_meets C.framed _ _).post fun _ _ hs => hs.from
  · split
    · exact (emitText_meets C.framed _ _).bind fun _ => hafter
    · exact hafter

/-! ## Elements -/

theorem rawTextWithin_meets (name : Text) (k : Nat) (hk : Token.weights ts < k)
    (hw : Token.weights ts ≤ n) :
    Meets C.error (C.At C.inv ts) (r.rawTextWithin t name k) fun c s =>
      C.Closes c ∧ C.From C.inv ts s := by
  induction k generalizing ts with
  | zero => omega
  | succ k ih =>
    refine (checkStop_meets C.framed).bind fun _ => ?_
    refine rest_meets ?_
    cases ts with
    | nil => exact .pure fun s hs => ⟨.none, hs.from⟩
    | cons tok ts =>
      have htail := Token.weights_tail_lt tok ts
      have hmore {us : List Token} (hus : us <:+ ts) :
          Meets C.error (C.At C.inv us) (r.rawTextWithin t name k) fun c s =>
            C.Closes c ∧ C.From C.inv (tok :: ts) s := by
        have hlight := Token.weights_suffix hus
        refine (ih (by omega) (by omega)).post fun _ _ h => ?_
        exact ⟨h.1, h.2.mono (hus.trans (List.suffix_cons tok ts))⟩
      refine (setLast_meets C.framed _).bind fun _ => ?_
      split
      · refine (emitText_meets C.framed _ _).bind fun _ => ?_
        refine (closingTag_meets C.framed).bind fun c => .given fun hc => ?_
        exact .pure fun s hs => ⟨.some hc, hs.mono (List.suffix_cons tok ts)⟩
      split
      · exact (marker_meets ht hr hw).bind fun _ => from_intro fun us hus _ => hmore hus
      · refine (skip_meets C.framed 1).bind fun _ => ?_
        exact (emitText_meets C.framed _ _).bind fun _ => hmore List.suffix_rfl

theorem children_meets (name : Text) (hw : Token.weights ts < n) :
    Meets C.error (C.At C.inv ts) (r.children t name) fun out s =>
      (Postpone C.later out.1 ∧ C.Closes out.2) ∧ C.From C.inv ts s := by
  have hcontent : Meets C.error (C.At C.inv ts) (r.content t name) fun c s =>
      C.Closes c ∧ C.From C.inv ts s := by
    unfold Registry.content
    rw [ht.turns]
    split
    · exact rawTextWithin_meets ht hr name n hw hw.le
    · exact parse_meets ht hw
  rw [Registry.children_eq]
  refine .get fun outer ho => .set ?_
  refine Meets.bind (hcontent.pre ?_) fun closing => .given fun hc => ?_
  · rintro _ rfl
    exact ⟨⟨ho.1.path, ho.1.includers, ho.1.part, ho.1.stop, .nil,
      C.framed _ _ ho.1.inv rfl rfl rfl⟩, ho.2⟩
  refine .get fun inner hi => .set (.pure ?_)
  rintro _ rfl
  exact ⟨⟨hi.1.sink.reverse, hc⟩, ⟨hi.1.path, hi.1.includers, hi.1.part, hi.1.stop, ho.1.sink,
    C.framed _ _ hi.1.inv rfl rfl rfl⟩, hi.2⟩

theorem element_meets {lt : Punct} (hw : Token.weights (.punct lt :: ts) ≤ n) :
    Meets C.error (C.At C.inv (.punct lt :: ts)) (r.element t lt) fun _ => C.From C.inv ts := by
  have hlight : Token.weights ts < n := (Token.weights_tail_lt _ ts).trans_le hw
  refine at_intro fun hp => ?_
  have hlt : Token.Placed C.tokens lt.pos := hp.placed (.head _)
  refine (skip_meets C.framed 1).bind fun _ => ?_
  refine rest_meets ?_
  refine (skip_meets C.framed _).bind fun _ => ?_
  have hname : (ts.drop (tagNameTokens ts).length) <:+ ts := List.drop_suffix _ _
  refine (attributes_meets ht hlt _ ((Token.weights_suffix hname).trans hlight.le)).bind
    fun ⟨reading, stop⟩ => .given fun hreading => ?_
  refine from_intro fun us hus _ => ?_
  have hrest : us <:+ ts := hus.trans hname
  have hattributes := hreading.nodes.reverse
  refine (tagNodes_meets hr ?_).bind fun opening => .given fun hopening => ?_
  · refine .append (.cons ?_ ?_ hattributes) (.of_leaves fun close hclose => ?_)
    · split <;> trivial
    · split <;> simp [lists]
    · rw [List.mem_singleton.mp hclose]
      repeat' split
      all_goals exact ⟨trivial, rfl⟩
  dsimp only
  split
  · exact (emit_meets C.framed hopening).post fun _ _ hs => hs.from.mono hrest
  refine (children_meets ht hr _ ((Token.weights_suffix hrest).trans_lt hlight)).bind
    fun ⟨children, closing⟩ => .given fun hchildren => ?_
  refine from_intro fun vs hvs _ => ?_
  cases closing with
  | none => exact .fail (expect_fault hlt (by simp))
  | some c =>
    have hc : Token.Placed C.tokens c.pos := hchildren.2 c rfl
    refine .guard (fun _ => expect_fault hc (by simp)) fun _ => ?_
    refine (tagNodes_meets hr ?_).bind fun stop => .given fun hstop => ?_
    · exact .append (.single trivial (by simp [lists])) .nil
    refine (elementNodes_meets hr ⟨hlt, ?_, hopening, hchildren.1, hstop⟩).bind fun nodes =>
      .given fun hnodes => ?_
    · simpa using hreading.values
    · exact (emit_meets C.framed hnodes).post fun _ _ hs => hs.from.mono (hvs.trans hrest)

theorem tagEntry_meets {lt : Punct} (hw : Token.weights (.punct lt :: ts) ≤ n) :
    Meets C.error (C.At C.inv (.punct lt :: ts)) (r.tagEntry t lt ts) fun c s =>
      C.Closes c ∧ C.From C.inv ts s := by
  have hclosing : Meets C.error (C.At C.inv (.punct lt :: ts)) (return some (← closingTag)) fun c s =>
      C.Closes c ∧ C.From C.inv ts s :=
    (closingTag_meets C.framed).bind fun c => .given fun hc => .pure fun s hs => ⟨.some hc, hs⟩
  have helement : Meets C.error (C.At C.inv (.punct lt :: ts)) (do
      r.element t lt
      return (none : Option ClosingTag)) fun c s => C.Closes c ∧ C.From C.inv ts s :=
    (element_meets ht hr hw).bind fun _ => .pure fun s hs => ⟨.none, hs⟩
  refine .look fun x _ => ?_
  dsimp only
  split
  · split
    · exact (emitText_meets C.framed _ _).bind fun _ => hclosing
    · exact hclosing
  split
  · exact (comment_meets C.framed).bind fun _ => .pure fun s hs => ⟨.none, hs⟩
  split
  · split
    · exact (emitText_meets C.framed _ _).bind fun _ => helement
    · exact helement
  · have hnode : Postpone C.later [.punct lt] := .single trivial (by simp [lists])
    refine (skip_meets C.framed 1).bind fun _ => ?_
    split
    · exact (emitText_meets C.framed _ _).bind fun _ => .pure fun s hs => ⟨.none, hs.from⟩
    · exact (emit_meets C.framed hnode).bind fun _ => .pure fun s hs => ⟨.none, hs.from⟩

/-! ## The loop -/

omit hr in
theorem goOn_meets (hw : Token.weights ts < n) :
    Meets C.error (C.From C.inv ts) (Registry.goOn t) fun c s => C.Closes c ∧ C.From C.inv ts s := by
  refine from_intro fun us hus _ => ?_
  refine .get fun x hx => ?_
  split
  · refine .set (.pure ?_)
    rintro _ rfl
    exact ⟨.none, hx.1.frame C.framed rfl rfl rfl rfl rfl rfl rfl, hx.from.2.trans hus⟩
  · refine ((ht.resume us ((Token.weights_suffix hus).trans_lt hw)).pre ?_).post fun _ _ h => ?_
    · rintro _ rfl
      exact hx
    · exact ⟨h.1, h.2.mono hus⟩

/-- One turn takes a token and leaves what is left of the turns to the rest. -/
theorem turn_meets (hw : Token.weights ts ≤ n) :
    Meets C.error (C.At C.inv ts) (r.turn t) fun c s => C.Closes c ∧ C.From C.inv ts s := by
  refine (checkStop_meets C.framed).bind fun _ => ?_
  refine rest_meets ?_
  refine at_intro fun hp => ?_
  cases ts with
  | nil => exact .pure fun s hs => ⟨.none, hs.from⟩
  | cons tok ts =>
    have hlight : Token.weights ts < n := (Token.weights_tail_lt tok ts).trans_le hw
    have hgo {m : ParseM Unit} (hm : Meets C.error (C.At C.inv (tok :: ts)) m fun _ => C.From C.inv ts) :
        Meets C.error (C.At C.inv (tok :: ts)) (do m; Registry.goOn t) fun c s =>
          C.Closes c ∧ C.From C.inv (tok :: ts) s := by
      refine hm.bind fun _ => (goOn_meets ht hlight).post fun _ _ h => ?_
      exact ⟨h.1, h.2.mono (List.suffix_cons tok ts)⟩
    have htext : Meets C.error (C.At C.inv (tok :: ts)) (do
        skip 1
        emitText (tok.space ++ tok.brief) tok.pos) fun _ => C.From C.inv ts :=
      (skip_meets C.framed 1).bind fun _ => (emitText_meets C.framed _ _).post fun _ _ hs => hs.from
    refine (setLast_meets C.framed _).bind fun _ => ?_
    refine .look fun x _ => ?_
    split
    · simpa only [bind_assoc] using hgo htext
    · rename_i f cs haction
      obtain rfl := Token.eq_of_action_group haction
      refine (skip_meets C.framed 1).bind fun _ => ?_
      refine (group_meets ht (inner_of_mem hp hw (.head _))).bind fun _ => ?_
      refine ((goOn_meets ht hlight).pre fun _ hs => hs.from).post fun _ _ h => ?_
      exact ⟨h.1, h.2.mono (List.suffix_cons _ ts)⟩
    · exact hgo (marker_meets ht hr hw)
    · rename_i lt haction
      obtain rfl := Token.eq_of_action_tag haction
      refine (tagEntry_meets ht hr hw).bind fun closing => .given fun hc => ?_
      have hts : ts <:+ .punct lt :: ts := List.suffix_cons _ ts
      cases closing with
      | some c => exact .pure fun s hs => ⟨hc, hs.mono hts⟩
      | none => exact (goOn_meets ht hlight).post fun _ _ h => ⟨h.1, h.2.mono hts⟩
    · refine (expression_meets ht hw).bind fun expr => .given fun hexpr => ?_
      refine from_intro fun us hus _ => ?_
      refine (emit_meets C.framed hexpr).bind fun _ => ?_
      refine ((goOn_meets ht hlight).pre fun _ hs => hs.from.mono hus).post fun _ _ h => ?_
      exact ⟨h.1, h.2.mono (List.suffix_cons tok ts)⟩
    · rename_i l _
      have hnode : Postpone C.later [.literal l] := .single trivial (by simp [lists])
      refine (skip_meets C.framed 1).bind fun _ => ?_
      refine (emit_meets C.framed hnode).bind fun _ => ?_
      refine ((goOn_meets ht hlight).pre fun _ hs => hs.from).post fun _ _ h => ?_
      exact ⟨h.1, h.2.mono (List.suffix_cons tok ts)⟩
    · rename_i p haction
      obtain rfl := Token.eq_of_action_code haction
      exact hgo (code_meets ht hw)
    · exact .pure fun s hs => ⟨.none, hs.from⟩

omit ht

/-- The templates that a run embeds keep the contract, whatever the loop. -/
def Embeds (C : Contract) (embed : Text → Text → ParseM Fragment) : Prop :=
  ∀ t : Tools, t.settings = C.settings → t.embed = embed →
    ∀ {name : Text} {pos : Option Position} {file data : Text}, Token.Placed C.tokens pos →
    Directive.Names Directive.templateNames C.tokens name →
    C.settings.Leads C.path name file data → ∀ ts,
    Meets C.error (C.At C.inv ts) (Directive.embedTemplate t pos data file) fun f s =>
      Postpone C.later f.nodes ∧ C.At (C.pending f) ts s

/-- The loop keeps the contract, and more turns than the tokens weigh are enough. -/
theorem loop_meets {embed : Text → Text → ParseM Fragment} (he : C.Embeds embed) (n : Nat)
    (hw : Token.weights ts < n) :
    Meets C.error (C.At C.inv ts) (r.loop C.settings embed n) fun c s =>
      C.Closes c ∧ C.From C.inv ts s := by
  induction n generalizing ts with
  | zero => omega
  | succ n ih =>
    refine turn_meets ⟨rfl, rfl, fun us hus => ih hus, ?_⟩ hr (Nat.le_of_lt_succ hw)
    exact fun hpos hnames hleads => he _ rfl rfl hpos hnames hleads

end Contract
end Atmark
