import Atmark.Page.View

/-! What the steps of a page mean, apart from how they are run. A run adds events to the history of the page, and what
it writes depends on the history alone: a section is rendered as it was defined last, and a required one is missing if
it was not defined before the call (`Stage.Runs`). The program that runs the steps finds the run of the steps, if it
may put enough sections inside each other (`Stage.run_eq`). -/
namespace Atmark.Page

/-! ## Histories -/

/-- Something that happens to the sections of a page. -/
inductive Event where
  | define (name : Text) (body : List Step)
  | call (name : Text) (required : Bool)

/-- What has happened, the latest event first. -/
abbrev History := List Event

namespace History

/-- The definitions, the latest first. -/
def sections : History → List (Text × List Step)
  | [] => []
  | .define name body :: h => (name, body) :: sections h
  | .call .. :: h => sections h

/-- The latest definition of a name. -/
def definition? (h : History) (name : Text) : Option (List Step) := h.sections.lookup name

/-- The names of the required sections that were not defined when they were called, in order of the calls. -/
def missing : History → List Text
  | [] => []
  | .call name true :: h => missing h ++ (if (definition? h name).isNone then [name] else [])
  | _ :: h => missing h

end History

/-! ## Runs -/

/-- A section that is being rendered, and what happened before its body runs. -/
structure Entry where
  name : Text
  body : List Step
  history : History

/-- What a run reads: the inputs of the page, its environment, and the output of the view. -/
structure Stage where
  inputs : Inputs
  environment : Text
  body : Text

namespace Stage

/-- What a step writes that neither defines nor renders a section. -/
def written? (st : Stage) : Step → Option Text
  | .literal t => some t
  | .value v => some v.show
  | .model => some st.inputs.model.show
  | .environment => some st.environment
  | .service name => some (st.inputs.service name).show
  | .renderBody => some st.body
  | .define .. | .renderSection .. => none

/-- After a history, the steps write a text and leave a history. -/
inductive Runs (st : Stage) : History → List Step → Text → History → Prop
  | done {h : History} : Runs st h [] [] h
  | write {h h' : History} {s : Step} {ss : List Step} {t u : Text} : st.written? s = some t →
      Runs st h ss u h' → Runs st h (s :: ss) (t ++ u) h'
  | define {h h' : History} {name : Text} {body ss : List Step} {u : Text} :
      Runs st (.define name body :: h) ss u h' → Runs st h (.define name body :: ss) u h'
  | undefined {h h' : History} {name : Text} {required : Bool} {ss : List Step} {u : Text} :
      h.definition? name = none → Runs st (.call name required :: h) ss u h' →
      Runs st h (.renderSection name required :: ss) u h'
  | render {h h₁ h' : History} {name : Text} {required : Bool} {body ss : List Step} {t u : Text} :
      h.definition? name = some body → Runs st (.call name required :: h) body t h₁ → Runs st h₁ ss u h' →
      Runs st h (.renderSection name required :: ss) (t ++ u) h'

/-- Steps have at most one run. -/
theorem Runs.unique {st : Stage} {h h₁ h₂ : History} {ss : List Step} {t u : Text} (ht : st.Runs h ss t h₁)
    (hu : st.Runs h ss u h₂) : t = u ∧ h₁ = h₂ := by
  induction ht generalizing u h₂ with
  | done =>
    cases hu with
    | done => exact ⟨rfl, rfl⟩
  | write hs _ ih =>
    cases hu with
    | write hs' hrest =>
      obtain ⟨rfl, rfl⟩ := ih hrest
      obtain rfl := Option.some.inj (hs.symm.trans hs')
      exact ⟨rfl, rfl⟩
    | define _ | undefined _ _ | render _ _ _ => cases hs
  | define _ ih =>
    cases hu with
    | write hs _ => cases hs
    | define hrest => exact ih hrest
  | undefined hnone _ ih =>
    cases hu with
    | write hs _ => cases hs
    | undefined _ hrest => exact ih hrest
    | render hsome _ _ =>
      rw [hnone] at hsome
      cases hsome
  | render hsome _ _ ihbody ih =>
    cases hu with
    | write hs _ => cases hs
    | undefined hnone _ =>
      rw [hnone] at hsome
      cases hsome
    | render hsome' hbody hrest =>
      obtain rfl := Option.some.inj (hsome.symm.trans hsome')
      obtain ⟨rfl, rfl⟩ := ihbody hbody
      obtain ⟨rfl, rfl⟩ := ih hrest
      exact ⟨rfl, rfl⟩

/-! ## Sections inside each other -/

/-- The steps come to render a section, after what they do before. -/
inductive Enters (st : Stage) : History → List Step → Entry → Prop
  | here {h : History} {name : Text} {required : Bool} {body ss : List Step} : h.definition? name = some body →
      Enters st h (.renderSection name required :: ss) ⟨name, body, .call name required :: h⟩
  | later {h h₁ : History} {s : Step} {ss : List Step} {t : Text} {e : Entry} : st.Runs h [s] t h₁ →
      Enters st h₁ ss e → Enters st h (s :: ss) e

/-- Sections that run inside each other, the outermost first, while the steps run. -/
inductive Nest (st : Stage) : History → List Step → List Entry → Prop
  | nil {h : History} {ss : List Step} : Nest st h ss []
  | cons {h : History} {ss : List Step} {e : Entry} {es : List Entry} : st.Enters h ss e →
      Nest st e.history e.body es → Nest st h ss (e :: es)

/-! ## The program -/

/-- The context after a history. -/
def context (st : Stage) (h : History) : Context where
  environment := st.environment
  sections := h.sections
  body := st.body
  missing := h.missing

theorem section?_context (st : Stage) (h : History) (name : Text) :
    (st.context h).section? name = h.definition? name := rfl

theorem context_define (st : Stage) (h : History) (name : Text) (body : List Step) :
    (st.context h).define name body = st.context (.define name body :: h) := rfl

/-- A call of a section that is not defined is noted if it is required. -/
theorem context_note (st : Stage) {h : History} {name : Text} (hnone : h.definition? name = none) (required : Bool) :
    (st.context h).note name required = st.context (.call name required :: h) := by
  cases required with
  | false => rfl
  | true => simp [Context.note, context, History.missing, History.sections, hnone]

/-- A call of a section that is defined is not noted. -/
theorem context_call (st : Stage) {h : History} {name : Text} {body : List Step}
    (hsome : h.definition? name = some body) (required : Bool) :
    st.context (.call name required :: h) = st.context h := by
  cases required with
  | false => rfl
  | true => simp [context, History.missing, History.sections, hsome]

theorem runWith_written {st : Stage} {s : Step} {t : Text} (hs : st.written? s = some t)
    (inner : List Step → Context → Option (Text × Context)) (ss : List Step) (h : History) :
    runWith inner st.inputs (s :: ss) (st.context h) =
      (runWith inner st.inputs ss (st.context h)).map fun p => (t ++ p.1, p.2) := by
  cases s <;> cases hs <;> rfl

/-- The steps run if each section that they come to render runs, and the program finds their run if it finds those of
the sections. -/
theorem runWith_eq {st : Stage} {inner : List Step → Context → Option (Text × Context)} (ss : List Step) (h : History)
    (hinner : ∀ e, st.Enters h ss e → ∃ t h', st.Runs e.history e.body t h' ∧
      inner e.body (st.context e.history) = some (t, st.context h')) :
    ∃ t h', st.Runs h ss t h' ∧ runWith inner st.inputs ss (st.context h) = some (t, st.context h') := by
  induction ss generalizing h with
  | nil => exact ⟨[], h, .done, rfl⟩
  | cons s ss ih =>
    by_cases hwritten : ∃ t, st.written? s = some t
    · obtain ⟨t, ht⟩ := hwritten
      obtain ⟨u, h', hruns, hrun⟩ := ih h fun e he => hinner e (.later (.write ht .done) he)
      refine ⟨t ++ u, h', .write ht hruns, ?_⟩
      rw [runWith_written ht, hrun]
      rfl
    · cases s with
      | define name body =>
        obtain ⟨u, h', hruns, hrun⟩ := ih (.define name body :: h) fun e he => hinner e (.later (.define .done) he)
        refine ⟨u, h', .define hruns, ?_⟩
        simp [runWith, context_define, hrun]
      | renderSection name required =>
        cases hdef : h.definition? name with
        | none =>
          obtain ⟨u, h', hruns, hrun⟩ := ih (.call name required :: h) fun e he =>
            hinner e (.later (.undefined hdef .done) he)
          refine ⟨u, h', .undefined hdef hruns, ?_⟩
          simp [runWith, section?_context, hdef, context_note st hdef, hrun]
        | some body =>
          obtain ⟨t, h₁, hbody, hinto⟩ := hinner _ (.here hdef)
          obtain ⟨u, h', hruns, hrun⟩ := ih h₁ fun e he => hinner e (.later (.render hdef hbody .done) he)
          rw [context_call st hdef] at hinto
          refine ⟨t ++ u, h', .render hdef hbody hruns, ?_⟩
          simp [runWith, section?_context, hdef, hinto, hrun]
      | literal _ | value _ | model | environment | service _ | renderBody => exact absurd ⟨_, rfl⟩ hwritten

/-- If no more than `n` sections run inside each other, the steps have a run, and the program finds it when it may put
so many sections inside each other. -/
theorem run_eq {st : Stage} (n : Nat) (ss : List Step) (h : History)
    (hdepth : ∀ es, st.Nest h ss es → es.length ≤ n) :
    ∃ t h', st.Runs h ss t h' ∧ run st.inputs n ss (st.context h) = some (t, st.context h') := by
  induction n generalizing ss h with
  | zero =>
    refine runWith_eq ss h ?_
    intro e he
    exact absurd (hdepth [e] (.cons he .nil)) (by simp)
  | succ n ih =>
    refine runWith_eq ss h ?_
    intro e he
    refine ih e.body e.history ?_
    intro es hes
    have hlonger : (e :: es).length ≤ n + 1 := hdepth (e :: es) (.cons he hes)
    simpa using hlonger

end Stage
end Atmark.Page
