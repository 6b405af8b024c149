import Mathlib.Data.Fintype.Pi
import Mathlib.Data.Fintype.Option
import Mathlib.Data.Fintype.Prod
import Mathlib.Algebra.BigOperators.Fin
import Atmark.Proofs.Page.Runs

/-! The page of a view. If no section is rendered inside itself, the sections go no deeper into each other than the
program allows (`Stage.Unrepeated.length_le_depth`), so the page is what the runs of the view and of the layout write,
or the list of the required sections that were missing in them (`render_eq`). -/
namespace Atmark.Page

/-! ## The definitions in a page -/

mutual

/-- The definitions in a step, those inside others included. -/
def Step.sections : Step → List (Text × List Step)
  | .define name body => (name, body) :: sectionsIn body
  | _ => []

/-- The definitions in steps, those inside others included. -/
def sectionsIn : List Step → List (Text × List Step)
  | [] => []
  | s :: ss => s.sections ++ sectionsIn ss

end

mutual

theorem Step.length_sections : (s : Step) → s.sections.length = s.definitions
  | .define _ body => by simp [Step.sections, Step.definitions, length_sectionsIn body]
  | .literal _ | .value _ | .model | .environment | .service _ | .renderSection .. | .renderBody => rfl

theorem length_sectionsIn : (ss : List Step) → (sectionsIn ss).length = definitionsOf ss
  | [] => rfl
  | s :: ss => by simp [sectionsIn, definitionsOf, s.length_sections, length_sectionsIn ss]

end

/-- With a definition, the definitions in its body are among them. -/
def Nested (ds : List (Text × List Step)) : Prop := ∀ d ∈ ds, sectionsIn d.2 ⊆ ds

theorem Nested.append {ds es : List (Text × List Step)} (hd : Nested ds) (he : Nested es) : Nested (ds ++ es) := by
  intro d hmem
  rcases List.mem_append.mp hmem with hmem | hmem
  · exact List.Subset.trans (hd d hmem) (List.subset_append_left ds es)
  · exact List.Subset.trans (he d hmem) (List.subset_append_right ds es)

mutual

theorem Step.nested_sections : (s : Step) → Nested s.sections
  | .define name body => by
    intro d hd
    rcases List.mem_cons.mp hd with rfl | hd
    · exact List.subset_cons_self _ _
    · exact List.Subset.trans (nested_sectionsIn body d hd) (List.subset_cons_self _ _)
  | .literal _ | .value _ | .model | .environment | .service _ | .renderSection .. | .renderBody => by
    intro d hd
    cases hd

theorem nested_sectionsIn : (ss : List Step) → Nested (sectionsIn ss)
  | [] => by
    intro d hd
    cases hd
  | s :: ss => s.nested_sections.append (nested_sectionsIn ss)

end

theorem History.mem_of_definition? {h : History} {name : Text} {body : List Step}
    (hdef : h.definition? name = some body) : (name, body) ∈ h.sections := by
  obtain ⟨before, after, hsplit, -⟩ := List.lookup_eq_some_iff.mp hdef
  rw [hsplit]
  exact List.mem_append_right before List.mem_cons_self

namespace Stage
variable {st : Stage} {ds : List (Text × List Step)} {h h' : History} {ss : List Step}

/-- A run defines nothing but what its steps and the bodies of the sections define. -/
theorem Runs.sections_subset {t : Text} (hruns : st.Runs h ss t h') (hds : Nested ds) (hh : h.sections ⊆ ds)
    (hss : sectionsIn ss ⊆ ds) : h'.sections ⊆ ds := by
  induction hruns with
  | done => exact hh
  | write _ _ ih => exact ih hh (List.Subset.trans (List.subset_append_right _ _) hss)
  | @define h h' name body ss u _ ih =>
    have hbody : (name, body) ∈ ds := hss (List.mem_append_left _ List.mem_cons_self)
    exact ih (List.cons_subset.mpr ⟨hbody, hh⟩) (List.Subset.trans (List.subset_append_right _ _) hss)
  | undefined _ _ ih => exact ih hh (List.Subset.trans (List.subset_append_right _ _) hss)
  | render hdef _ _ ihbody ih =>
    have hmem := hh (History.mem_of_definition? hdef)
    exact ih (ihbody hh (hds _ hmem)) (List.Subset.trans (List.subset_append_right _ _) hss)

/-- A section that steps come to render is one that has been defined. -/
theorem Enters.mem {e : Entry} (henters : st.Enters h ss e) (hds : Nested ds) (hh : h.sections ⊆ ds)
    (hss : sectionsIn ss ⊆ ds) : (e.name, e.body) ∈ ds ∧ e.history.sections ⊆ ds := by
  induction henters with
  | here hdef => exact ⟨hh (History.mem_of_definition? hdef), hh⟩
  | @later h h₁ s ss t e hstep _ ih =>
    have hfirst : sectionsIn [s] ⊆ ds := by
      rw [sectionsIn, sectionsIn, List.append_nil]
      exact List.Subset.trans (List.subset_append_left _ _) hss
    exact ih (hstep.sections_subset hds hh hfirst) (List.Subset.trans (List.subset_append_right _ _) hss)

theorem Nest.mem {es : List Entry} (hnest : st.Nest h ss es) (hds : Nested ds) (hh : h.sections ⊆ ds)
    (hss : sectionsIn ss ⊆ ds) : ∀ e ∈ es, (e.name, e.body) ∈ ds ∧ e.history.sections ⊆ ds := by
  induction hnest with
  | nil => simp
  | cons henters _ ih =>
    obtain ⟨hbody, hhistory⟩ := henters.mem hds hh hss
    intro e he
    rcases List.mem_cons.mp he with rfl | he
    · exact ⟨hbody, hhistory⟩
    · exact ih hhistory (hds _ hbody) e he

end Stage

/-! ## How deep sections go -/

/-- The same section: one name, and every name defined in the same way. -/
structure Entry.Same (e e' : Entry) : Prop where
  name : e.name = e'.name
  definitions : ∀ m, e.history.definition? m = e'.history.definition? m

/-- The name of the section, and what the names in the page are defined to be. -/
def Entry.key (ds : List (Text × List Step)) (e : Entry) : Text × (Fin ds.length → Option (List Step)) :=
  (e.name, fun j => e.history.definition? ds[j].1)

theorem Entry.same_of_key {ds : List (Text × List Step)} {e e' : Entry} (he : e.history.sections ⊆ ds)
    (he' : e'.history.sections ⊆ ds) (hkey : e.key ds = e'.key ds) : e.Same e' := by
  obtain ⟨hname, htable⟩ := Prod.mk.inj hkey
  refine ⟨hname, ?_⟩
  intro m
  by_cases hm : ∃ j : Fin ds.length, ds[j].1 = m
  · obtain ⟨j, rfl⟩ := hm
    exact congrFun htable j
  · have hnone {e : Entry} (he : e.history.sections ⊆ ds) : e.history.definition? m = none := by
      cases hdef : e.history.definition? m with
      | none => rfl
      | some body =>
        obtain ⟨j, hj, heq⟩ := List.getElem_of_mem (he (History.mem_of_definition? hdef))
        exact absurd ⟨⟨j, hj⟩, by simp [heq]⟩ hm
    rw [hnone he, hnone he']

section
open Classical

/-- The keys of sections that are defined by `ds`. -/
noncomputable def keys (ds : List (Text × List Step)) : Finset (Text × (Fin ds.length → Option (List Step))) :=
  (ds.map (·.1)).toFinset ×ˢ Fintype.piFinset fun _ => insert none (ds.map fun d => some d.2).toFinset

theorem card_keys_le (ds : List (Text × List Step)) : (keys ds).card ≤ depth ds.length := by
  have hnames : (ds.map (·.1)).toFinset.card ≤ ds.length := by
    simpa using List.toFinset_card_le (ds.map (·.1))
  have hbodies : (insert none (ds.map fun d => some d.2).toFinset).card ≤ ds.length + 1 := by
    refine (Finset.card_insert_le _ _).trans (Nat.succ_le_succ ?_)
    simpa using List.toFinset_card_le (ds.map fun d => some d.2)
  calc
    (keys ds).card
      = (ds.map (·.1)).toFinset.card * (insert none (ds.map fun d => some d.2).toFinset).card ^ ds.length := by
        rw [keys, Finset.card_product, Fintype.card_piFinset_const]
    _ ≤ (ds.length + 1) * (ds.length + 1) ^ ds.length :=
        Nat.mul_le_mul (hnames.trans (Nat.le_succ _)) (Nat.pow_le_pow_left hbodies _)
    _ = depth ds.length := (Nat.pow_succ').symm

theorem Entry.key_mem_keys {ds : List (Text × List Step)} {e : Entry} (hbody : (e.name, e.body) ∈ ds)
    (hhistory : e.history.sections ⊆ ds) : e.key ds ∈ keys ds := by
  refine Finset.mem_product.mpr ⟨?_, Fintype.mem_piFinset.mpr ?_⟩
  · exact List.mem_toFinset.mpr (List.mem_map_of_mem hbody)
  · intro j
    show e.history.definition? ds[j].1 ∈ _
    cases hdef : e.history.definition? ds[j].1 with
    | none => exact Finset.mem_insert_self _ _
    | some body =>
      have hmem := hhistory (History.mem_of_definition? hdef)
      exact Finset.mem_insert_of_mem (List.mem_toFinset.mpr (List.mem_map.mpr ⟨_, hmem, rfl⟩))

namespace Stage

/-- No section is rendered inside itself, that is, under the same name while every name is defined as before. -/
def Unrepeated (st : Stage) (h : History) (ss : List Step) : Prop :=
  ∀ es, st.Nest h ss es → es.Pairwise fun e e' => ¬ e.Same e'

/-- Sections that are not rendered inside themselves go no deeper into each other than their definitions allow. -/
theorem Unrepeated.length_le_depth {st : Stage} {h : History} {ss : List Step} {ds : List (Text × List Step)}
    (hun : st.Unrepeated h ss) (hds : Nested ds) (hh : h.sections ⊆ ds) (hss : sectionsIn ss ⊆ ds)
    {es : List Entry} (hnest : st.Nest h ss es) : es.length ≤ depth ds.length := by
  have hmem := hnest.mem hds hh hss
  have hnodup : (es.map (·.key ds)).Nodup := by
    refine List.pairwise_map.mpr ((hun es hnest).imp_of_mem ?_)
    intro e e' he he' hdiffer hkey
    exact hdiffer (Entry.same_of_key (hmem e he).2 (hmem e' he').2 hkey)
  have hsubset : (es.map (·.key ds)).toFinset ⊆ keys ds := by
    intro k hk
    obtain ⟨e, he, rfl⟩ := List.mem_map.mp (List.mem_toFinset.mp hk)
    exact Entry.key_mem_keys (hmem e he).1 (hmem e he).2
  calc
    es.length = (es.map (·.key ds)).toFinset.card := by
      rw [List.toFinset_card_of_nodup hnodup, List.length_map]
    _ ≤ (keys ds).card := Finset.card_le_card hsubset
    _ ≤ depth ds.length := card_keys_le ds

end Stage
end

namespace Stage
variable {st : Stage} {ds : List (Text × List Step)} {h : History} {ss : List Step} {rank : Text → Nat}

theorem Enters.call {e : Entry} (henters : st.Enters h ss e) : ∃ required, Step.renderSection e.name required ∈ ss := by
  induction henters with
  | here _ => exact ⟨_, List.mem_cons_self⟩
  | later _ _ ih =>
    obtain ⟨required, hmem⟩ := ih
    exact ⟨required, List.mem_cons_of_mem _ hmem⟩

/-- Where each section renders only sections of lower rank, those inside a section have a lower rank. -/
theorem Nest.rank_lt {es : List Entry} (hnest : st.Nest h ss es) (hds : Nested ds) (hh : h.sections ⊆ ds)
    (hss : sectionsIn ss ⊆ ds)
    (hrank : ∀ d ∈ ds, ∀ name required, Step.renderSection name required ∈ d.2 → rank name < rank d.1) {k : Nat}
    (hk : ∀ name required, Step.renderSection name required ∈ ss → rank name < k) : ∀ e ∈ es, rank e.name < k := by
  induction hnest with
  | nil => simp
  | @cons h ss e es henters _ ih =>
    obtain ⟨hbody, hhistory⟩ := henters.mem hds hh hss
    obtain ⟨required, hcall⟩ := henters.call
    have hfirst : rank e.name < k := hk e.name required hcall
    have hrest := ih hhistory (hds _ hbody) fun name required hmem =>
      (hrank _ hbody name required hmem).trans hfirst
    intro e' he'
    rcases List.mem_cons.mp he' with rfl | he'
    · exact hfirst
    · exact hrest e' he'

/-- No section is rendered inside itself if each renders only sections of lower rank. -/
theorem Unrepeated.of_rank (hds : Nested ds) (hh : h.sections ⊆ ds) (hss : sectionsIn ss ⊆ ds)
    (hrank : ∀ d ∈ ds, ∀ name required, Step.renderSection name required ∈ d.2 → rank name < rank d.1) :
    st.Unrepeated h ss := by
  intro es hnest
  induction hnest with
  | nil => exact List.Pairwise.nil
  | @cons h ss e es henters hnest ih =>
    obtain ⟨hbody, hhistory⟩ := henters.mem hds hh hss
    have hlower := hnest.rank_lt hds hhistory (hds _ hbody) hrank (hrank _ hbody)
    refine List.Pairwise.cons ?_ (ih hhistory (hds _ hbody))
    intro e' he' hsame
    have hlt := hlower e' he'
    rw [hsame.name] at hlt
    exact Nat.lt_irrefl _ hlt

end Stage

/-! ## The page -/

/-- The page that was written, or its missing sections if there are any. -/
def answer (html : Text) (h : History) : Except Failure Text :=
  if h.missing = [] then .ok html
  else .error (.undefinedSections (Text.intercalate (utf8 "\n") (h.missing.map Context.missingText)))

theorem Stage.failure?_context (st : Stage) (h : History) : (st.context h).failure? =
    if h.missing = [] then none
    else some (Text.intercalate (utf8 "\n") (h.missing.map Context.missingText)) := by
  by_cases hmissing : h.missing = []
  · simp [Context.failure?, Stage.context, hmissing]
  · simp [Context.failure?, Stage.context, hmissing]

/-- The page of a view in which no section is rendered inside itself, and of a layout in which none is after the view
has run. The view runs from the empty history and has no body to render, the layout goes on from its history and has
its output as the body. Then the page is answered: with its markup if no required section was missing when it was
called, and else with all that were, in the order of the calls. -/
theorem render_eq (environment : Text) (i : Inputs) (view : List Step) (layout : Option (List Step))
    (hview : (Stage.mk i environment []).Unrepeated [] view)
    (hlayout : ∀ steps body h, layout = some steps → (Stage.mk i environment []).Runs [] view body h →
      (Stage.mk i environment body).Unrepeated h steps) :
    ∃ body h, (Stage.mk i environment []).Runs [] view body h ∧
      match layout with
      | none => render environment i view none = answer body h
      | some steps => ∃ html h', (Stage.mk i environment body).Runs h steps html h' ∧
        render environment i view (some steps) = answer html h' := by
  -- The view and the layout run with the bound for the definitions of both.
  have hnested : Nested (sectionsIn view ++ sectionsIn (layout.getD [])) :=
    (nested_sectionsIn view).append (nested_sectionsIn _)
  have hlength : (sectionsIn view ++ sectionsIn (layout.getD [])).length =
      definitionsOf view + definitionsOf (layout.getD []) := by
    rw [List.length_append, length_sectionsIn, length_sectionsIn]
  have hviewsub : sectionsIn view ⊆ sectionsIn view ++ sectionsIn (layout.getD []) := List.subset_append_left _ _
  obtain ⟨body, h, hruns, hrun⟩ := Stage.run_eq (depth (definitionsOf view + definitionsOf (layout.getD []))) view []
    fun es hnest => hlength ▸ hview.length_le_depth hnested (List.nil_subset _) hviewsub hnest
  refine ⟨body, h, hruns, ?_⟩
  cases layout with
  | none =>
    show render environment i view none = answer body h
    have hpage : run i (depth (definitionsOf view + definitionsOf [])) view { environment } =
        some (body, (Stage.mk i environment []).context h) := hrun
    by_cases hmissing : h.missing = []
    · simp [render, hpage, Stage.failure?_context, answer, hmissing]
    · simp [render, hpage, Stage.failure?_context, answer, hmissing]
  | some steps =>
    have hsub : sectionsIn steps ⊆ sectionsIn view ++ sectionsIn steps := List.subset_append_right _ _
    have hhistory := hruns.sections_subset hnested (List.nil_subset _) hviewsub
    obtain ⟨html, h', hruns', hrun'⟩ := Stage.run_eq (depth (definitionsOf view + definitionsOf steps)) steps h
      fun es hnest => hlength ▸ (hlayout steps body h rfl hruns).length_le_depth hnested hhistory hsub hnest
    refine ⟨html, h', hruns', ?_⟩
    have hpage : run i (depth (definitionsOf view + definitionsOf steps)) view { environment } =
        some (body, (Stage.mk i environment []).context h) := hrun
    have hframe : { (Stage.mk i environment []).context h with body := body } =
        (Stage.mk i environment body).context h := rfl
    by_cases hmissing : h'.missing = []
    · simp [render, hpage, hframe, hrun', Stage.failure?_context, answer, hmissing]
    · simp [render, hpage, hframe, hrun', Stage.failure?_context, answer, hmissing]

/-- A view whose section needs another one. -/
def sampleView : List Step :=
  [.literal (utf8 "v"), .define (utf8 "main") [.literal (utf8 "m"), .renderSection (utf8 "aside") true]]

/-- A layout that renders a section before and after it is defined. -/
def sampleLayout : List Step :=
  [.renderSection (utf8 "main") true, .renderSection (utf8 "foot") true,
    .define (utf8 "foot") [.renderBody], .renderSection (utf8 "foot") true]

/-- The call inside the section is reported before that in the layout, and the second call of the footer is not. -/
theorem render_eq_sample : ∃ body h html h',
    (Stage.mk {} [] []).Runs [] sampleView body h ∧ (Stage.mk {} [] body).Runs h sampleLayout html h' ∧
    render [] {} sampleView (some sampleLayout) = answer html h' ∧
    answer html h' = .error (.undefinedSections (Text.intercalate (utf8 "\n")
      [Context.missingText (utf8 "aside"), Context.missingText (utf8 "foot")])) := by
  have hnested : Nested (sectionsIn sampleView ++ sectionsIn sampleLayout) :=
    (nested_sectionsIn sampleView).append (nested_sectionsIn sampleLayout)
  have hrank : ∀ d ∈ sectionsIn sampleView ++ sectionsIn sampleLayout, ∀ name required,
      Step.renderSection name required ∈ d.2 →
        (if name = utf8 "main" then 1 else 0) < (if d.1 = utf8 "main" then 1 else 0) := by
    intro d hd name required hmem
    have hcases : d = (utf8 "main", [.literal (utf8 "m"), .renderSection (utf8 "aside") true]) ∨
        d = (utf8 "foot", [.renderBody]) := by
      simpa [sectionsIn, Step.sections, sampleView, sampleLayout] using hd
    rcases hcases with rfl | rfl
    · obtain ⟨rfl, -⟩ : name = utf8 "aside" ∧ required = true := by simpa using hmem
      decide
    · simp at hmem
  have hview : (Stage.mk {} [] []).Unrepeated [] sampleView :=
    .of_rank hnested (List.nil_subset _) (List.subset_append_left _ _) hrank
  have hlayout : ∀ steps body h, some sampleLayout = some steps → (Stage.mk {} [] []).Runs [] sampleView body h →
      (Stage.mk {} [] body).Unrepeated h steps := by
    intro steps body h hsteps hruns
    cases hsteps
    have hhistory := hruns.sections_subset hnested (List.nil_subset _) (List.subset_append_left _ _)
    exact .of_rank hnested hhistory (List.subset_append_right _ _) hrank
  obtain ⟨body, h, hruns, html, h', hruns', hpage⟩ := render_eq [] {} sampleView (some sampleLayout) hview hlayout
  refine ⟨body, h, html, h', hruns, hruns', hpage, ?_⟩
  rw [← hpage]
  decide +kernel

end Atmark.Page
