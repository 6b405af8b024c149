import Atmark.Directive.Builtin
import Atmark.Proofs.Parse.Returns

/-! What directives read before they add nodes, and what they declare. None of it touches the region, so
every invariant of the nodes alone is kept. -/
namespace Atmark
open ParseM

/-! ## Declarations -/

section Declarations
variable {P : State → Prop} (hP : OfNodes P)
include hP

namespace ParseM

theorem typePath_keeps {arguments : Option Position → ParseM (List Token)}
    (ha : ∀ pos, Keeps P (arguments pos) fun _ => True) (ts : List Token) :
    Keeps P (typePath arguments ts) fun _ => True := by
  have hnone : Keeps P (pure []) fun _ : List Token => True := .pure trivial
  fun_induction typePath arguments ts with
  | case1 => exact hnone
  | case2 => exact hnone
  | case3 tok ts _ ihPath ihDot =>
    have hsegment (pos : Option Position) (n : Ident) (k : Nat) {us : List Token}
        (ih : Keeps P (typePath arguments us) fun _ => True) :
        Keeps P (do
          skip k
          return .mark pos '.' :: .word n.pos n.name :: (← typePath arguments us)) fun _ => True :=
      (hP.skip _).bind fun _ _ => ih.bind fun _ _ => .pure trivial
    refine (hP.setLast _).bind fun _ _ => ?_
    split
    · refine .guard fun _ => ?_
      split
      · split
        · exact hsegment _ _ _ ihPath
        · exact .fail _ _
      · exact .fail _ _
    split
    · split
      · split
        · exact hsegment _ _ _ ihDot
        · exact hnone
      · exact hnone
    split
    · exact (hP.skip _).bind fun _ _ => (ha _).bind fun _ _ => .pure trivial
    · exact hnone

theorem typeFrom_keeps {arguments : Option Position → ParseM (List Token)}
    (ha : ∀ pos, Keeps P (arguments pos) fun _ => True) (ts : List Token) :
    Keeps P (typeFrom arguments ts) fun _ => True := by
  induction ts with
  | nil => exact Keeps.get.bind fun _ _ => .fail _ _
  | cons tok ts ih =>
    unfold typeFrom
    split
    · refine (hP.skip _).bind fun _ _ => ?_
      split
      · exact ih.bind fun _ _ => .pure trivial
      · exact .fail _ _
    · split
      · refine (hP.skip _).bind fun _ _ => ?_
        exact (typePath_keeps hP ha ts).bind fun _ _ => .pure trivial
      · exact .unexpected _ _

mutual

theorem typeWithin_keeps (n : Nat) : Keeps P (typeWithin n) fun _ => True := by
  match n with
  | 0 => exact .throw _
  | n + 1 =>
    refine hP.checkStop.bind fun _ _ => ?_
    exact Keeps.rest.bind fun ts _ => typeFrom_keeps hP (typeArguments_keeps n) ts

theorem typeArguments_keeps (n : Nat) (pos : Option Position) :
    Keeps P (typeArguments n pos) fun _ => True := by
  match n with
  | 0 => exact .throw _
  | n + 1 =>
    refine (typeWithin_keeps n).bind fun arg _ => ?_
    refine Keeps.peek.bind fun next _ => ?_
    split
    · exact .fail _ _
    · refine (hP.skip _).bind fun _ _ => ?_
      split
      · exact .pure trivial
      split
      · exact (typeArguments_keeps n pos).bind fun _ _ => .pure trivial
      · exact .unexpected _ _

end

theorem typeName_keeps : Keeps P typeName fun _ => True :=
  Keeps.rest.bind fun _ _ => typeWithin_keeps hP _

end ParseM

namespace Directive

omit hP in
theorem declarable_keeps (id : Ident) : Keeps P (declarable id) fun _ => True := by
  refine Keeps.get.bind fun _ _ => ?_
  split
  · exact .fail _ _
  · exact .pure trivial

theorem argument_keeps (id : Ident) (expecting : String) :
    Keeps P (argument id expecting) fun _ => True := by
  refine Keeps.peek.bind fun next _ => ?_
  split
  · exact .fail _ _
  · refine .guard fun _ => ?_
    exact (hP.setLast _).bind fun _ _ => .pure trivial

theorem stringArgument_keeps (id : Ident) : Keeps P (stringArgument id) fun _ => True := by
  refine (argument_keeps hP id _).bind fun tok _ => ?_
  split
  · refine .guard fun _ => ?_
    refine (hP.skip _).bind fun _ _ => ?_
    split
    · exact .pure trivial
    · exact .fail _ _
  · exact .unexpected _ _

/-- A declaration is noted and leaves out the rest of its line. -/
theorem declared_keeps (f : Declarations → Declarations) :
    Keeps P (do
      declare f
      trimLine
      return Outcome.next) fun _ => True := by
  refine (hP.declare _).bind fun _ _ => ?_
  exact hP.trimLine.bind fun _ _ => .pure trivial

theorem model_keeps (id : Ident) : Keeps P (model id) fun _ => True := by
  refine Keeps.peek.bind fun next _ => ?_
  dsimp only
  split
  · exact .pure trivial
  · refine (declarable_keeps id).bind fun _ _ => ?_
    refine Keeps.get.bind fun s _ => ?_
    refine .guard fun _ => ?_
    refine (argument_keeps hP id _).bind fun _ _ => ?_
    exact (typeName_keeps hP).bind fun _ _ => declared_keeps hP _

theorem viewName_keeps (id : Ident) : Keeps P (viewName id) fun _ => True := by
  refine (declarable_keeps id).bind fun _ _ => ?_
  refine Keeps.get.bind fun s _ => ?_
  refine .guard fun _ => ?_
  refine (stringArgument_keeps hP id).bind fun value _ => ?_
  exact .guard fun _ => declared_keeps hP _

theorem parameter_keeps (id : Ident) : Keeps P (parameter id) fun _ => True := by
  refine (declarable_keeps id).bind fun _ _ => ?_
  refine Keeps.get.bind fun s _ => ?_
  split
  · exact .fail _ _
  · exact (stringArgument_keeps hP id).bind fun _ _ => declared_keeps hP _

theorem importName_keeps : Keeps P importName fun _ => True := by
  refine Keeps.peek.bind fun next _ => ?_
  split
  · exact (hP.skip _).bind fun _ _ => .pure trivial
  · split
    · exact (hP.skip _).bind fun _ _ => .pure trivial
    · exact .pure trivial
  · exact .pure trivial

theorem use_keeps (id : Ident) : Keeps P (use id) fun _ => True := by
  refine (argument_keeps hP id _).bind fun _ _ => ?_
  refine (importName_keeps hP).bind fun name _ => ?_
  refine Keeps.peek.bind fun next _ => ?_
  split
  · exact .fail _ _
  · refine (hP.skip _).bind fun _ _ => ?_
    split
    · refine .guard fun _ => ?_
      split
      · exact .fail _ _
      · rename_i path _
        have hadd : Keeps P (do
            if (← peek).any fun t => t.isPunct ';' && !Text.breaksLine t.space then skip 1
            declare (·.addImport ⟨name, path⟩)
            trimLine
            return Outcome.next) fun _ => True := by
          refine Keeps.peek.bind fun next _ => ?_
          split
          · exact (hP.skip _).bind fun _ _ => declared_keeps hP _
          · exact declared_keeps hP _
        dsimp only
        split
        · exact (Keeps.fail (Q := fun _ => True) _ _).bind fun _ _ => hadd
        · exact hadd
    · exact .unexpected _ _

theorem inject_keeps (id : Ident) : Keeps P (inject id) fun _ => True := by
  refine (argument_keeps hP id _).bind fun _ _ => ?_
  refine Keeps.rest.bind fun ts _ => ?_
  dsimp only
  refine (hP.skip _).bind fun _ _ => ?_
  exact .guard fun _ => declared_keeps hP _

theorem codeSection_keeps (id : Ident) : Keeps P (codeSection id) fun _ => True := by
  refine (declarable_keeps id).bind fun _ _ => ?_
  refine (argument_keeps hP id _).bind fun _ _ => ?_
  refine Keeps.get.bind fun s _ => ?_
  split
  · exact .unexpected _ _
  · exact (hP.skip _).bind fun _ _ => declared_keeps hP _

/-! ## Names and contents of other files -/

omit hP in
theorem callArguments_keeps : Keeps P callArguments? fun _ => True :=
  Keeps.get.bind fun _ _ => .pure trivial

theorem pathArgument_keeps (id : Ident) : Keeps P (pathArgument id) fun _ => True := by
  refine (argument_keeps hP id _).bind fun tok _ => ?_
  have hbare : Keeps P (do
      let ts := pathTokens true (← rest)
      if ts.isEmpty then unexpected tok (.afterDirective id.name (utf8 "path"))
      skip ts.length
      return (Token.sourceOf ts, tok.pos)) fun _ => True := by
    refine Keeps.rest.bind fun ts _ => ?_
    refine .guard fun _ => ?_
    exact (hP.skip _).bind fun _ _ => .pure trivial
  dsimp only
  split
  · split
    · refine (hP.skip _).bind fun _ _ => ?_
      split
      · exact .pure trivial
      · exact .fail _ _
    · exact hbare
  · exact hbare

omit hP in
/-- Giving what was found, or the error that was met. -/
theorem found_keeps (result : Except Error (Text × Text)) : Keeps P (do
    match result with
    | .ok found => return found
    | .error e => throw e) fun _ => True := by
  split
  · exact .pure trivial
  · exact .throw _

theorem readContent_keeps (t : Tools) (name : Text) (pos : Option Position) :
    Keeps P (readContent t name pos) fun _ => True := by
  refine Keeps.get.bind fun s _ => ?_
  dsimp only
  split
  · exact (hP.note _ _).bind fun _ _ => found_keeps _
  · exact found_keeps _

omit hP in
theorem checkName_keeps (name : Text) (pos : Option Position) :
    Keeps P (checkName name pos) fun _ => True := by
  unfold checkName
  refine .guard fun _ => ?_
  refine Keeps.get.bind fun s _ => ?_
  split
  · exact .fail _ _
  · exact .pure trivial

omit hP in
theorem markdownText_keeps (t : Tools) (src : Text) (pos : Option Position) :
    Keeps P (markdownText t src pos) fun _ => True := by
  unfold markdownText
  split
  · exact .pure trivial
  · exact .throw _

theorem markdownSource_keeps (id : Ident) : Keeps P (markdownSource id) fun _ => True := by
  refine (argument_keeps hP id _).bind fun tok _ => ?_
  dsimp only
  split
  · split
    · exact .unexpected _ _
    · split
      · exact .pure trivial
      · exact .fail _ _
  · split
    · exact .pure trivial
    · exact .unexpected _ _
  · exact .unexpected _ _

end Directive
end Declarations

end Atmark
