import Atmark.Directive.Builtin
import Atmark.Proofs.Parse.Congruence

/-! The directives of the language do nothing with the parser but run it, so they do related things where
it does (`Registry.standard_isPlain`). -/
namespace Atmark
open Node ParseM Directive

namespace Directive

theorem readContent_congr {t t' : Tools} (h : t'.settings = t.settings) (name : Text)
    (pos : Option Position) : readContent t' name pos = readContent t name pos := by
  unfold readContent
  rw [h]

theorem markdownText_congr {t t' : Tools} (h : t'.settings = t.settings) (src : Text)
    (pos : Option Position) : markdownText t' src pos = markdownText t src pos := by
  unfold markdownText
  rw [h]

theorem freshContent_congr {t t' : Tools} (h : t'.settings = t.settings) (name : Text)
    (pos : Option Position) (convert : Text → Text → ParseM Fragment) :
    freshContent t' name pos convert = freshContent t name pos convert := by
  unfold freshContent
  rw [readContent_congr h]

theorem cachedContent_congr {t t' : Tools} (h : t'.settings = t.settings) (kind : ContentKind)
    (name : Text) (pos : Option Position) (convert : Text → Text → ParseM Fragment) :
    cachedContent t' kind name pos convert = cachedContent t kind name pos convert := by
  unfold cachedContent
  simp only [freshContent_congr h]

theorem htmlFile_congr {t t' : Tools} (h : t'.settings = t.settings) (cached : Bool) (id : Ident) :
    htmlFile cached t' id = htmlFile cached t id := by
  unfold htmlFile
  simp only [cachedContent_congr h]

theorem markdownFile_congr {t t' : Tools} (h : t'.settings = t.settings) (cached : Bool) (id : Ident) :
    markdownFile cached t' id = markdownFile cached t id := by
  unfold markdownFile
  simp only [cachedContent_congr h, markdownText_congr h]

theorem markdown_congr {t t' : Tools} (h : t'.settings = t.settings) (id : Ident) :
    markdown t' id = markdown t id := by
  unfold markdown
  simp only [markdownText_congr h]

end Directive

namespace ParseM.Congruence
variable {R : {α : Type} → ParseM α → ParseM α → Prop} (hR : Congruence R) {t t' : Tools}
  (ht : Tools.Related R t t')
include hR ht

theorem block (f : Frame) (ts : List Token) : R (block t f ts) (block t' f ts) :=
  hR.before (hR.region ht f ts _) _

theorem forLoop (id : Ident) : R (forLoop t id) (forLoop t' id) := by
  refine hR.next fun ts => hR.next fun ⟨header, f, cs⟩ => ?_
  dsimp only
  split
  · exact hR.refl _
  · exact hR.before (hR.block ht f cs) _

theorem whileLoop (id : Ident) : R (whileLoop t id) (whileLoop t' id) := by
  refine hR.next fun ts => hR.next fun ⟨header, f, cs⟩ => ?_
  exact hR.guard (hR.before (hR.block ht f cs) _)

theorem branch (id : Ident) : R (branch t id) (branch t' id) := by
  refine hR.next fun ts => hR.next fun ⟨header, f, cs⟩ => ?_
  exact hR.guard (hR.before (hR.block ht f cs) _)

theorem elseBranches (n : Nat) : R (elseBranches t n) (elseBranches t' n) := by
  induction n with
  | zero => exact hR.refl _
  | succ n ih =>
    refine hR.next fun ts => ?_
    split
    · exact hR.refl _
    · split
      · split
        · exact hR.next fun _ => hR.next fun _ => hR.bind (hR.branch ht _) fun _ => ih
        · exact hR.refl _
      · split
        · exact hR.next fun _ => hR.before (hR.block ht _ _) _
        · exact hR.refl _
      · exact hR.refl _

theorem condition (id : Ident) : R (condition t id) (condition t' id) := by
  refine hR.next fun _ => hR.bind (hR.branch ht id) fun _ => ?_
  exact hR.next fun ts => hR.before (hR.elseBranches ht _) _

theorem defineSection (id : Ident) : R (defineSection t id) (defineSection t' id) := by
  refine hR.next fun tok => ?_
  split
  · exact hR.refl _
  · refine hR.next fun _ => hR.next fun s => ?_
    split
    · exact hR.refl _
    · exact hR.next fun _ => hR.before (hR.region ht _ _ _) _

theorem renderSection (id : Ident) : R (renderSection t id) (renderSection t' id) := by
  refine hR.next fun args => ?_
  split
  · exact hR.refl _
  · exact hR.next fun _ => hR.before (hR.region ht _ _ _) _

theorem embedTemplate (pos : Option Position) (src file : Text) :
    R (embedTemplate t pos src file) (embedTemplate t' pos src file) := by
  refine hR.next fun s => ?_
  exact hR.guard (hR.next fun _ => ht.embed _ _)

omit ht in
/-- A content that is converted in related ways. -/
theorem freshContent (t : Tools) (name : Text) (pos : Option Position)
    {convert convert' : Text → Text → ParseM Fragment}
    (h : ∀ data file, R (convert data file) (convert' data file)) :
    R (freshContent t name pos convert) (freshContent t name pos convert') :=
  hR.next fun _ => h _ _

omit ht in
theorem cachedContent (t : Tools) (kind : ContentKind) (name : Text) (pos : Option Position)
    {convert convert' : Text → Text → ParseM Fragment}
    (h : ∀ data file, R (convert data file) (convert' data file)) :
    R (cachedContent t kind name pos convert) (cachedContent t kind name pos convert') := by
  refine hR.next fun found => ?_
  split
  · exact hR.freshContent t name pos h
  · split
    · exact hR.refl _
    · exact hR.next fun _ => hR.before (hR.freshContent t name pos h) _

theorem templateFile (cached : Bool) (id : Ident) :
    R (templateFile cached t id) (templateFile cached t' id) := by
  refine hR.next fun a => ?_
  simp only [cachedContent_congr ht.settings, freshContent_congr ht.settings]
  cases cached with
  | false => exact hR.before (hR.freshContent t _ _ (hR.embedTemplate ht _)) _
  | true => exact hR.before (hR.cachedContent t _ _ _ (hR.embedTemplate ht _)) _

end ParseM.Congruence

theorem Registry.standard_isPlain : ∀ d ∈ standard.directives, d.IsPlain := by
  intro d hd R hR t t' id ht
  simp only [standard, builtinDirectives, List.mem_cons, List.not_mem_nil, or_false] at hd
  rcases hd with rfl | rfl | rfl | rfl | rfl | rfl | rfl | rfl | rfl | rfl | rfl | rfl | rfl | rfl |
    rfl | rfl | rfl | rfl | rfl | rfl | rfl | rfl | rfl
  case _ | _ | _ | _ | _ | _ | _ | _ | _ => exact hR.refl _
  · exact hR.forLoop ht id
  · exact hR.whileLoop ht id
  · exact hR.condition ht id
  · exact hR.refl _
  · exact hR.defineSection ht id
  · exact hR.renderSection ht id
  · exact hR.refl _
  · exact hR.of_eq (htmlFile_congr ht.settings true id)
  · exact hR.of_eq (htmlFile_congr ht.settings false id)
  · exact hR.templateFile ht true id
  · exact hR.templateFile ht false id
  · exact hR.of_eq (markdown_congr ht.settings id)
  · exact hR.of_eq (markdownFile_congr ht.settings true id)
  · exact hR.of_eq (markdownFile_congr ht.settings false id)

end Atmark
