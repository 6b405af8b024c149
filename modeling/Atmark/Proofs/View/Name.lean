import Atmark.Code.Name
import Atmark.Proofs.Site.Templates
import Atmark.Proofs.Text.Case
import Atmark.View.Name

/-! Names of the types of views. A view name with a letter or a digit has a type name, which can stand in code, ends
with `View` and is its own type name; any other has none. Other packages can use the type exactly if the first letter
or digit of the view name is a digit, before which a capital is put, or a letter with an upper-case capital
(`typeName_exported_iff`). -/
namespace Atmark

namespace Code

/-- A name of a package that other packages can use: it starts with an upper-case letter. -/
def isExported (t : Text) : Bool := (Text.runes t).head?.any Text.isUpper

end Code

namespace View

/-- A character of a view name that its type name keeps. -/
def isKept (c : Char) : Bool := Text.isLetter c || Text.isDigit c

/-- The first letter or digit of a view name. -/
def first? (name : Text) : Option Char := (Text.runes name).find? isKept

/-- The first character of a type name, by the first letter or digit of the view name. -/
def initial (c : Char) : Char := if Text.isDigit c then 'V' else Text.toUpper c

/-! ## The words of a name -/

theorem isKept_toUpper {c : Char} (h : isKept c = true) : isKept (Text.toUpper c) = true := by
  rw [isKept, Bool.or_eq_true] at h ⊢
  rcases h with hletter | hdigit
  · exact .inl (Text.isLetter_toUpper hletter)
  · exact .inr (by rw [Text.isDigit_toUpper, hdigit])

theorem head?_camel (cs : List Char) : (camel true cs).head? = (cs.find? isKept).map Text.toUpper := by
  induction cs with
  | nil => rfl
  | cons c cs ih =>
    cases hc : isKept c with
    | true =>
      rw [List.find?_cons_of_pos hc]
      rw [isKept] at hc
      simp [camel, hc]
    | false =>
      rw [List.find?_cons_of_neg (by simp [hc]), ← ih]
      rw [isKept] at hc
      simp [camel, hc]

theorem isKept_of_mem_camel {start : Bool} {cs : List Char} {d : Char} (h : d ∈ camel start cs) :
    isKept d = true := by
  induction cs generalizing start with
  | nil => cases h
  | cons c cs ih =>
    rw [camel] at h
    split at h
    · rename_i hc
      rcases List.mem_cons.mp h with rfl | h
      · split
        · exact isKept_toUpper hc
        · exact hc
      · exact ih h
    · exact ih h

/-- A word is left as it is but for its first letter. -/
theorem camel_of_kept {cs : List Char} (h : ∀ c ∈ cs, isKept c = true) : camel false cs = cs := by
  induction cs with
  | nil => rfl
  | cons c cs ih =>
    have hc := h c (.head _)
    rw [isKept] at hc
    rw [camel, if_pos hc, if_neg Bool.false_ne_true, ih fun d hd => h d (.tail _ hd)]

theorem letterFirst_cons (c : Char) (cs : List Char) :
    letterFirst (c :: cs) = if Text.isDigit c then 'V' :: c :: cs else c :: cs := rfl

/-! ## Type names -/

/-- The characters of a type name: they are letters and digits, and the first one is a letter and its own capital. -/
structure Titled (cs : List Char) : Prop where
  kept : ∀ c ∈ cs, isKept c = true
  capital : ∀ c ∈ cs.head?, Text.isDigit c = false ∧ Text.toUpper c = c

/-- The words of a view name make the characters of a type name. -/
theorem titled_letterFirst (cs : List Char) : Titled (letterFirst (camel true cs)) := by
  have hkept : ∀ d ∈ camel true cs, isKept d = true := fun d hd => isKept_of_mem_camel hd
  have hhead := head?_camel cs
  cases hcamel : camel true cs with
  | nil => exact ⟨by simp [letterFirst], by simp [letterFirst]⟩
  | cons d ds =>
    rw [hcamel] at hkept hhead
    obtain ⟨c, -, hc⟩ := Option.map_eq_some_iff.mp hhead.symm
    rw [letterFirst_cons]
    split
    · refine ⟨fun e he => ?_, fun e he => ?_⟩
      · rcases List.mem_cons.mp he with rfl | he
        · decide
        · exact hkept e he
      · obtain rfl := Option.some.inj he
        decide +kernel
    · rename_i hdigit
      refine ⟨hkept, fun e he => ?_⟩
      obtain rfl := Option.some.inj he
      exact ⟨by simpa using hdigit, by rw [← hc, Text.toUpper_toUpper]⟩

theorem head?_letterFirst (cs : List Char) :
    (letterFirst (camel true cs)).head? = (cs.find? isKept).map initial := by
  have hhead := head?_camel cs
  cases hfirst : cs.find? isKept with
  | none =>
    rw [hfirst] at hhead
    rw [List.head?_eq_none_iff.mp hhead]
    rfl
  | some c =>
    rw [hfirst] at hhead
    obtain ⟨ds, hds⟩ := List.head?_eq_some_iff.mp hhead
    rw [hds, letterFirst_cons, Text.isDigit_toUpper, Option.map_some, initial]
    split <;> rfl

theorem titled_append_view {cs : List Char} (h : Titled cs) (hne : cs ≠ []) : Titled (cs ++ "View".toList) := by
  refine ⟨fun c hc => ?_, ?_⟩
  · rcases List.mem_append.mp hc with hc | hc
    · exact h.kept c hc
    · have hview : "View".toList.all isKept = true := by decide
      exact List.all_eq_true.mp hview c hc
  · rw [List.head?_append_of_ne_nil _ hne]
    exact h.capital

theorem endsWith_append_view (t : Text) : Text.endsWith (utf8 "View") (t ++ utf8 "View") = true :=
  Text.endsWith_iff.mpr (List.suffix_append _ _)

/-- A view name without letters and digits has no type name, and no other one is without. -/
theorem typeName?_eq_none_iff (name : Text) : typeName? name = none ↔ first? name = none := by
  have hhead := head?_letterFirst (Text.runes name)
  unfold typeName?
  split
  · rename_i hnil
    rw [hnil, List.head?_nil, eq_comm, Option.map_eq_none_iff] at hhead
    exact iff_of_true rfl hhead
  · rename_i hne
    refine iff_of_false (by simp) fun hfirst => hne ?_
    rw [show (Text.runes name).find? isKept = none from hfirst] at hhead
    exact List.head?_eq_none_iff.mp hhead

/-- A type name is written in the characters of one, the first one by the first letter or digit of the view name. -/
theorem exists_titled {name t : Text} (h : typeName? name = some t) : ∃ c ds, Titled (c :: ds) ∧
    (first? name).map initial = some c ∧ t = Text.ofRunes (c :: ds) ∧ Text.endsWith (utf8 "View") t = true := by
  have htitled := titled_letterFirst (Text.runes name)
  have hhead := head?_letterFirst (Text.runes name)
  unfold typeName? at h
  split at h
  · cases h
  · rename_i hne
    obtain ⟨c, ds, hcs⟩ := List.exists_cons_of_ne_nil hne
    rw [hcs] at h htitled hhead
    simp only [Option.some.injEq] at h
    subst h
    split
    · rename_i hview
      exact ⟨c, ds, htitled, hhead.symm, rfl, hview⟩
    · refine ⟨c, ds ++ "View".toList, titled_append_view htitled (by simp), hhead.symm, ?_, endsWith_append_view _⟩
      rw [← List.cons_append, Text.ofRunes, Text.ofRunes, List.flatMap_append]
      rfl

/-- The characters of a type name make a name in code. -/
theorem Titled.isName {c : Char} {ds : List Char} (h : Titled (c :: ds))
    (hview : Text.endsWith (utf8 "View") (Text.ofRunes (c :: ds)) = true) :
    Code.isName (Text.ofRunes (c :: ds)) = true := by
  have hletter : Text.isLetter c = true := by
    have hkept := h.kept c (.head _)
    rwa [isKept, (h.capital c rfl).1, Bool.or_false] at hkept
  have hword : ds.all Text.isWordChar = true := by
    refine List.all_eq_true.mpr fun d hd => ?_
    have hkept := h.kept d (.tail _ hd)
    rw [isKept] at hkept
    rw [Text.isWordChar, Bool.or_assoc, hkept, Bool.or_true]
  have hkeyword : Code.keywords.contains (Text.ofRunes (c :: ds)) = false := by
    have hall : Code.keywords.all (fun k => !Text.endsWith (utf8 "View") k) = true := by decide
    rw [List.contains_eq_mem, decide_eq_false_iff_not]
    intro hmem
    have hnot := List.all_eq_true.mp hall _ hmem
    rw [hview] at hnot
    cases hnot
  simp only [Code.isName, Text.runes_ofRunes, Text.isValid_ofRunes, hletter, hword, hkeyword]
  simp

/-- The characters of a type name are one word with a capital, so they are its own type name. -/
theorem Titled.typeName?_eq {c : Char} {ds : List Char} (h : Titled (c :: ds))
    (hview : Text.endsWith (utf8 "View") (Text.ofRunes (c :: ds)) = true) :
    typeName? (Text.ofRunes (c :: ds)) = some (Text.ofRunes (c :: ds)) := by
  obtain ⟨hdigit, hcapital⟩ := h.capital c rfl
  have hkept : (Text.isLetter c || Text.isDigit c) = true := h.kept c (.head _)
  have hcamel : camel true (c :: ds) = c :: ds := by
    rw [camel, if_pos hkept, if_pos rfl, hcapital, camel_of_kept fun d hd => h.kept d (.tail _ hd)]
  have hletters : letterFirst (c :: ds) = c :: ds := by
    rw [letterFirst_cons, hdigit, if_neg Bool.false_ne_true]
  simp only [typeName?, Text.runes_ofRunes, hcamel, hletters, hview, if_true]

/-- The type of every view has a name that can stand in code. -/
theorem isName_typeOf (declared path : Text) : Code.isName (typeOf declared path) = true := by
  unfold typeOf
  cases htype : typeName? (nameOf declared path) with
  | none => rfl
  | some t =>
    obtain ⟨c, ds, htitled, -, rfl, hview⟩ := exists_titled htype
    exact htitled.isName hview

/-- The first character of a type name is an upper-case letter if it stands for a digit or is the capital of a letter
that has one. -/
theorem isUpper_initial (c : Char) :
    Text.isUpper (initial c) = true ↔ Text.isDigit c = true ∨ Text.hasCapital c = true := by
  unfold initial
  cases hdigit : Text.isDigit c with
  | true => simp only [if_true, true_or, iff_true]; decide
  | false => simp [Text.hasCapital]

/-- A view name has a type name exactly if it has a letter or a digit. The type name is a name in code, ends with `View`
and is its own type name. It is exported exactly if the first letter or digit of the view name is a digit, which gets
a capital before it, or a letter with an upper-case capital: nothing is put before any other letter. -/
theorem typeName_exported_iff (name : Text) :
    (typeName? name = none ↔ ∀ c ∈ Text.runes name, Text.isLetter c = false ∧ Text.isDigit c = false) ∧
    ∀ t, typeName? name = some t → Code.isName t = true ∧ Text.endsWith (utf8 "View") t = true ∧
      typeName? t = some t ∧
      (Code.isExported t = true ↔ ∃ c ∈ first? name, Text.isDigit c = true ∨ Text.hasCapital c = true) := by
  constructor
  · rw [typeName?_eq_none_iff, first?, List.find?_eq_none]
    simp [isKept]
  · intro t htype
    obtain ⟨d, ds, htitled, hfirst, rfl, hview⟩ := exists_titled htype
    refine ⟨htitled.isName hview, hview, htitled.typeName?_eq hview, ?_⟩
    obtain ⟨c, hc, rfl⟩ := Option.map_eq_some_iff.mp hfirst
    simp [Code.isExported, Text.runes_ofRunes, isUpper_initial, hc]

/-- The first letter of 日本 語 has no capital, so the type is not exported. -/
theorem typeName_exported_iff_caseless :
    typeName? (utf8 "日本 語") = some (utf8 "日本語View") ∧ Code.isName (utf8 "日本語View") = true ∧
      typeName? (utf8 "日本語View") = some (utf8 "日本語View") ∧ Code.isExported (utf8 "日本語View") = false := by
  have htype : typeName? (utf8 "日本 語") = some (utf8 "日本語View") := by decide +kernel
  obtain ⟨hname, -, hagain, hexported⟩ := (typeName_exported_iff (utf8 "日本 語")).2 _ htype
  refine ⟨htype, hname, hagain, Bool.eq_false_iff.mpr fun hupper => ?_⟩
  obtain ⟨c, hc, hcapital⟩ := hexported.mp hupper
  have hfirst : first? (utf8 "日本 語") = some '日' := by decide +kernel
  rw [hfirst] at hc
  obtain rfl := Option.some.inj hc
  exact absurd hcapital (by decide +kernel)

end View
end Atmark
