import Atmark.Proofs.Parse.Contract

/-! Declarations one after another. Imports and statements are added unless they are there, so a list of them
leaves the first of each (`firsts`), whether it is added at once or in parts that were reduced before
(`foldl_addTo_shared`). A view is declared by at most one directive of each kind (`Fresh`), and what a list of
declarations comes to can be read off the list (`sums`). -/
namespace Atmark

/-! ## The first of each -/

section Firsts
variable {α κ : Type} [DecidableEq κ] (key : α → κ)

/-- The elements with a key that no element before them has. -/
def firsts : List α → List α
  | [] => []
  | a :: l => a :: (firsts l).filter (key · ≠ key a)

/-- The list with an element, unless one with its key is there. -/
def addFirst (l : List α) (a : α) : List α := if l.any (key · = key a) then l else l ++ [a]

theorem firsts_filter (p : κ → Bool) (l : List α) :
    firsts key (l.filter fun a => p (key a)) = (firsts key l).filter fun a => p (key a) := by
  induction l with
  | nil => rfl
  | cons a l ih =>
    cases hp : p (key a) with
    | true => simp [firsts, hp, ih, List.filter_filter, Bool.and_comm]
    | false =>
      have hdrop (b : α) : (p (key b) && decide (key b ≠ key a)) = p (key b) := by
        by_cases hb : key b = key a
        · simp [hb, hp]
        · simp [hb]
      simp only [List.filter_cons, hp, Bool.false_eq_true, if_false, ih, firsts, List.filter_filter, hdrop]

theorem firsts_firsts (l : List α) : firsts key (firsts key l) = firsts key l := by
  induction l with
  | nil => rfl
  | cons a l ih =>
    have hfilter := firsts_filter key (fun k => decide (k ≠ key a)) (firsts key l)
    simp only [firsts, hfilter, ih, List.filter_filter, Bool.and_self]

/-- What is added to a list are the first of each of those that are not there. -/
theorem foldl_addFirst (l acc : List α) : l.foldl (addFirst key) acc =
    acc ++ (firsts key l).filter fun a => !acc.any (key · = key a) := by
  induction l generalizing acc with
  | nil => simp [firsts]
  | cons a l ih =>
    rw [List.foldl_cons, ih, firsts, List.filter_cons, List.filter_filter]
    by_cases ha : acc.any (key · = key a) = true
    · have hdrop (b : α) : (!acc.any (key · = key b) && decide (key b ≠ key a)) =
          !acc.any (key · = key b) := by
        by_cases hb : key b = key a
        · simp [hb, ha]
        · simp [hb]
      simp only [addFirst, ha, if_true, Bool.not_true, Bool.false_eq_true, if_false, hdrop]
    · rw [Bool.not_eq_true] at ha
      simp only [addFirst, ha, Bool.false_eq_true, if_false, Bool.not_false, if_true,
        List.append_assoc, List.singleton_append, List.any_append, List.any_cons, List.any_nil,
        Bool.or_false, Bool.not_or]
      congr 3
      funext b
      simp [eq_comm]

theorem foldl_addFirst_firsts (l acc : List α) :
    (firsts key l).foldl (addFirst key) acc = l.foldl (addFirst key) acc := by
  rw [foldl_addFirst, foldl_addFirst, firsts_firsts]

theorem foldl_addFirst_nil (l : List α) : l.foldl (addFirst key) [] = firsts key l := by
  rw [foldl_addFirst]
  simp

end Firsts

/-! ## Imports and statements -/

namespace Declarations
variable (d : Declarations)

theorem addImport_eq (i : Import) : d.addImport i = { d with imports := addFirst id d.imports i } := by
  have hcontains : d.imports.contains i = d.imports.any (id · = id i) := by
    rw [List.contains_eq_any_beq]
    congr 1
    funext j
    by_cases hj : j = i
    · simp [hj]
    · simp [hj, Ne.symm hj]
  unfold addImport addFirst
  rw [hcontains]
  split <;> rfl

theorem addInject_eq (stmt : List Token) :
    d.addInject stmt = { d with injects := addFirst Token.sourceOf d.injects stmt } := by
  unfold addInject addFirst
  split <;> rfl

theorem merge_eq (f : Fragment) : d.merge f =
    { d with
      imports := f.imports.foldl (addFirst id) d.imports
      injects := f.injects.foldl (addFirst Token.sourceOf) d.injects } := by
  have himports (l : List Import) (d : Declarations) :
      l.foldl addImport d = { d with imports := l.foldl (addFirst id) d.imports } := by
    induction l generalizing d with
    | nil => rfl
    | cons i l ih => rw [List.foldl_cons, ih, addImport_eq, List.foldl_cons]
  have hinjects (l : List (List Token)) (d : Declarations) :
      l.foldl addInject d = { d with injects := l.foldl (addFirst Token.sourceOf) d.injects } := by
    induction l generalizing d with
    | nil => rfl
    | cons stmt l ih => rw [List.foldl_cons, ih, addInject_eq, List.foldl_cons]
  rw [merge, himports, hinjects]

end Declarations

namespace Declaration

/-- The import of a declaration. -/
def use? : Declaration → Option Import
  | .use i => some i
  | _ => none

/-- The statement of a declaration. -/
def inject? : Declaration → Option (List Token)
  | .inject stmt => some stmt
  | _ => none

/-- The type that a declaration gives the model. -/
def model? : Declaration → Option (List Token)
  | .model type _ => some type
  | _ => none

/-- The name that a declaration gives the view. -/
def name? : Declaration → Option Text
  | .name value _ => some value
  | _ => none

/-- The parameter and its value. -/
def parameter? : Declaration → Option (Text × Text)
  | .parameter key value _ => some (key, value)
  | _ => none

/-- The block that a declaration adds to a section. -/
def block? (key : Text) : Declaration → Option (Frame × List Token)
  | .code k f block => if k = key then some (f, block) else none
  | _ => none

/-- The declarations of a list, one after another. -/
def total (ds : List Declaration) : Declarations := ds.foldl addTo {}

theorem foldl_addTo_imports (ds : List Declaration) (d : Declarations) :
    (ds.foldl addTo d).imports = (ds.filterMap use?).foldl (addFirst id) d.imports := by
  induction ds generalizing d with
  | nil => rfl
  | cons x ds ih =>
    rw [List.foldl_cons, ih]
    cases x <;> simp [List.filterMap_cons, addTo, use?, Declarations.addImport_eq, Declarations.addInject_eq,
      Declarations.putSection]

theorem foldl_addTo_injects (ds : List Declaration) (d : Declarations) :
    (ds.foldl addTo d).injects = (ds.filterMap inject?).foldl (addFirst Token.sourceOf) d.injects := by
  induction ds generalizing d with
  | nil => rfl
  | cons x ds ih =>
    rw [List.foldl_cons, ih]
    cases x <;> simp [List.filterMap_cons, addTo, inject?, Declarations.addImport_eq, Declarations.addInject_eq,
      Declarations.putSection]

/-- Shared declarations can be added together, reduced to the first of each. -/
theorem foldl_addTo_shared {ds : List Declaration} (h : ∀ x ∈ ds, x.isShared = true) (d : Declarations)
    (ns : List Node) : ds.foldl addTo d = d.merge ⟨ns, (total ds).imports, (total ds).injects⟩ := by
  have hshared : ds.foldl addTo d =
      { d with imports := (ds.foldl addTo d).imports, injects := (ds.foldl addTo d).injects } := by
    clear ns
    induction ds generalizing d with
    | nil => rfl
    | cons x ds ih =>
      rw [List.foldl_cons]
      conv => lhs; rw [ih fun y hy => h y (.tail _ hy)]
      have hx := h x (.head _)
      cases x with
      | use i => rw [addTo, Declarations.addImport_eq]
      | inject stmt => rw [addTo, Declarations.addInject_eq]
      | _ => cases hx
  rw [hshared, Declarations.merge_eq, foldl_addTo_imports, foldl_addTo_injects]
  simp only [total, foldl_addTo_imports, foldl_addTo_injects, foldl_addFirst_nil, foldl_addFirst_firsts]

/-! ## What a list of declarations comes to -/

/-- Each declaration is new after those before it. -/
def Fresh : Declarations → List Declaration → Prop
  | _, [] => True
  | d, x :: ds => x.IsNew d ∧ Fresh (x.addTo d) ds

theorem fresh_append {d : Declarations} {ds es : List Declaration} :
    Fresh d (ds ++ es) ↔ Fresh d ds ∧ Fresh (ds.foldl addTo d) es := by
  induction ds generalizing d with
  | nil => simp [Fresh]
  | cons x ds ih => simp [Fresh, ih, and_assoc]

theorem fresh_shared {ds : List Declaration} (h : ∀ x ∈ ds, x.isShared = true) (d : Declarations) :
    Fresh d ds := by
  induction ds generalizing d with
  | nil => trivial
  | cons x ds ih =>
    refine ⟨?_, ih (fun y hy => h y (.tail _ hy)) _⟩
    have hx := h x (.head _)
    cases x with
    | use => trivial
    | inject => trivial
    | _ => cases hx

/-- The position of a declared name is known, so that a second one is noticed. -/
def IsPlaced : Declaration → Prop
  | .name _ pos => pos ≠ none
  | _ => True

section Fresh
variable {d : Declarations} {ds : List Declaration} (h : Fresh d ds)
include h

/-- There is no model to declare but the first. -/
theorem Fresh.model : (ds.foldl addTo d).model = d.model.or (ds.filterMap model?).head? ∧
    (d.model.toList ++ ds.filterMap model?).length ≤ 1 := by
  induction ds generalizing d with
  | nil => cases hm : d.model <;> simp [hm]
  | cons x ds ih =>
    obtain ⟨hmodel, hlength⟩ := ih h.2
    rw [List.foldl_cons, hmodel]
    cases x with
    | model type pos =>
      have hnew : d.model = none := h.1
      simpa [List.filterMap_cons, model?, addTo, hnew] using hlength
    | _ =>
      simpa [List.filterMap_cons, model?, addTo, Declarations.addImport_eq, Declarations.addInject_eq,
        Declarations.putSection] using hlength

/-- There is no name to declare but the first. -/
theorem Fresh.name (hplaced : ∀ x ∈ ds, x.IsPlaced) (hd : d.namePos = none → d.name = []) :
    ((ds.foldl addTo d).name = if d.namePos.isSome then d.name else (ds.filterMap name?).head?.getD []) ∧
      (d.namePos.toList.length + (ds.filterMap name?).length) ≤ 1 := by
  induction ds generalizing d with
  | nil => cases hm : d.namePos <;> simp [hm, hd]
  | cons x ds ih =>
    have hrest : ∀ y ∈ ds, y.IsPlaced := fun y hy => hplaced y (.tail _ hy)
    cases x with
    | name value pos =>
      have hnew : d.namePos = none := h.1
      have hpos : pos ≠ none := hplaced _ (.head _)
      obtain ⟨p, rfl⟩ := Option.ne_none_iff_exists'.mp hpos
      obtain ⟨hname, hlength⟩ := ih h.2 hrest (by simp [addTo])
      refine ⟨by simpa [List.filterMap_cons, name?, addTo, hnew] using hname, ?_⟩
      simp only [addTo, Option.toList_some, List.length_singleton] at hlength
      simp only [List.filterMap_cons, name?, hnew, Option.toList_none, List.length_nil, List.length_cons]
      omega
    | _ =>
      obtain ⟨hname, hlength⟩ := ih h.2 hrest (by
        simpa [addTo, Declarations.addImport_eq, Declarations.addInject_eq, Declarations.putSection] using hd)
      simpa [List.filterMap_cons, name?, addTo, Declarations.addImport_eq, Declarations.addInject_eq,
        Declarations.putSection] using And.intro hname hlength

/-- The parameters have different keys. -/
theorem Fresh.parameters : (ds.foldl addTo d).parameters.map (fun p => (p.1, p.2.1)) =
      d.parameters.map (fun p => (p.1, p.2.1)) ++ ds.filterMap parameter? ∧
    ((d.parameters.map (·.1)).Nodup →
      (d.parameters.map (·.1) ++ (ds.filterMap parameter?).map (·.1)).Nodup) := by
  induction ds generalizing d with
  | nil => simp
  | cons x ds ih =>
    obtain ⟨hparameters, hnodup⟩ := ih h.2
    rw [List.foldl_cons, hparameters]
    cases x with
    | parameter key value pos =>
      have hnew : ∀ p ∈ d.parameters, p.1 ≠ key := h.1
      refine ⟨by simp [parameter?, addTo], fun hd => ?_⟩
      have hkeys : ((d.parameters ++ [(key, value, pos)]).map (·.1)).Nodup := by
        rw [List.map_append, List.nodup_append]
        refine ⟨hd, by simp, ?_⟩
        rintro k hk _ hkey rfl
        obtain ⟨p, hp, rfl⟩ := List.mem_map.mp hk
        exact hnew p hp (by simpa using hkey)
      simpa [List.filterMap_cons, parameter?, addTo] using hnodup hkeys
    | _ =>
      simpa [List.filterMap_cons, parameter?, addTo, Declarations.addImport_eq,
        Declarations.addInject_eq, Declarations.putSection] using hnodup

end Fresh

/-- Only the section that is put is changed. -/
theorem sectionOf?_putSection (d : Declarations) (key key' : Text) (ts : List Token) :
    (d.putSection key ts).sectionOf? key' = if key = key' then some ts else d.sectionOf? key' := by
  unfold Declarations.sectionOf? Declarations.putSection
  by_cases hkey : key = key'
  · simp [hkey]
  · have hfind : (d.sections.filter (·.1 ≠ key)).find? (·.1 = key') = d.sections.find? (·.1 = key') := by
      rw [List.find?_filter]
      congr 1
      funext p
      by_cases hp : p.1 = key'
      · simp [hp, Ne.symm hkey]
      · simp [hp]
    simp only [List.find?_cons, hkey, decide_false, hfind, if_false]

/-- The blocks of a section, one after another. -/
def joinAll : Option (List Token) → List (Frame × List Token) → Option (List Token) :=
  List.foldl fun ts b => some (Directive.joinBlocks (ts.getD []) b.1 b.2)

/-- A section holds the blocks that are declared for it. -/
theorem foldl_addTo_section (ds : List Declaration) (d : Declarations) (key : Text) :
    (ds.foldl addTo d).sectionOf? key = joinAll (d.sectionOf? key) (ds.filterMap (block? key)) := by
  induction ds generalizing d with
  | nil => rfl
  | cons x ds ih =>
    rw [List.foldl_cons, ih]
    cases x with
    | code k f block =>
      rw [addTo, sectionOf?_putSection, List.filterMap_cons]
      by_cases hk : k = key
      · simp [block?, joinAll, hk]
      · simp [block?, hk]
    | _ =>
      simp [List.filterMap_cons, block?, addTo, Declarations.addImport_eq, Declarations.addInject_eq,
        Declarations.sectionOf?]

end Declaration

/-- What a view declares is what the declarations of a list come to: the first of each import, and of each
statement by its source; at most one model, at most one name and at most one value of each parameter; and in
each section the blocks that are declared for it, in order. -/
structure Declarations.Sums (d : Declarations) (ds : List Declaration) : Prop where
  imports : d.imports = firsts id (ds.filterMap Declaration.use?)
  injects : d.injects = firsts Token.sourceOf (ds.filterMap Declaration.inject?)
  model : d.model = (ds.filterMap Declaration.model?).head?
  oneModel : (ds.filterMap Declaration.model?).length ≤ 1
  name : d.name = (ds.filterMap Declaration.name?).head?.getD []
  oneName : (ds.filterMap Declaration.name?).length ≤ 1
  parameters : d.parameters.map (fun p => (p.1, p.2.1)) = ds.filterMap Declaration.parameter?
  oneParameter : ((ds.filterMap Declaration.parameter?).map (·.1)).Nodup
  sections : ∀ key, d.sectionOf? key = Declaration.joinAll none (ds.filterMap (Declaration.block? key))

/-- Declarations that are new each time sum up to what they say. -/
theorem Declaration.total_sums {ds : List Declaration} (h : Fresh {} ds) (hplaced : ∀ x ∈ ds, x.IsPlaced) :
    (total ds).Sums ds := by
  obtain ⟨hmodel, hmodels⟩ := h.model
  obtain ⟨hname, hnames⟩ := h.name hplaced fun _ => rfl
  obtain ⟨hparameters, hkeys⟩ := h.parameters
  constructor
  · rw [total, foldl_addTo_imports, foldl_addFirst_nil]
  · rw [total, foldl_addTo_injects, foldl_addFirst_nil]
  · simpa [total] using hmodel
  · simpa using hmodels
  · simpa [total] using hname
  · simpa using hnames
  · simpa [total] using hparameters
  · simpa using hkeys
  · exact foldl_addTo_section ds {}

end Atmark
