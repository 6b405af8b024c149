import Atmark.Proofs.Parse.Returns
import Atmark.Site.Basic

/-! The names that the method Render declares: its receiver and its parameters. All but the buffer have a fixed name;
that of the buffer is the one of the configuration. Of the names that a configuration may give it, six make a method
that does not compile (`Template.generate_signature`): the fixed ones declare a name twice, under the blank one the
buffer cannot be used, and under the name of the runtime package it hides the package from the code of sections and
closures. -/
namespace Atmark

/-! ## Signatures -/

/-- A name with its type. -/
structure Parameter where
  name : Text
  type : Text

/-- What stands before the body of a method. -/
structure Signature where
  receiver : Parameter
  method : Text
  parameters : List Parameter

/-- The parameter as it is written. -/
def Parameter.print (p : Parameter) : Text := p.name ++ utf8 " " ++ p.type

namespace Signature

/-- The signature as it is written. -/
def print (s : Signature) : Text :=
  utf8 "func (" ++ s.receiver.print ++ utf8 ") " ++ s.method ++ utf8 "(" ++
    Text.intercalate (utf8 ", ") (s.parameters.map (·.print)) ++ utf8 ")"

/-- The names that the signature declares in the body. -/
def names (s : Signature) : List Text := s.receiver.name :: s.parameters.map (·.name)

end Signature

/-! ## Names in code -/

namespace Token

mutual

/-- The names that something is selected from in a token. -/
def qualifiersIn : Token → List Text
  | .group _ ts => qualifiers false ts
  | _ => []

/-- The names that something is selected from: `a` in `a.b.c`, at any depth of the tokens. After a dot stand
only names of what is selected. -/
def qualifiers (dotted : Bool) : List Token → List Text
  | [] => []
  | t :: ts =>
    (match t, ts.head? with
      | .ident i, some u => if !dotted && u.isPunct '.' then [i.name] else []
      | _, _ => []) ++ qualifiersIn t ++ qualifiers (t.isPunct '.') ts

end

end Token

namespace Code
open Token

/-- The code that defines a section selects the type of its buffer from the runtime package. -/
theorem runtimeName_mem_defineCall (buf : Text) (pos : Option Position) (name : Text) (body : List Token) :
    runtimeName ∈ qualifiers false (defineCall buf pos name body).tokens := by
  simp [defineCall, qualifiers, qualifiersIn, Token.word, Token.mark, Token.enclose, isPunct]

/-- The code of a closure selects the function that makes its buffer from the runtime package. -/
theorem runtimeName_mem_closureCode (buf : Text) (type : Ident) (f : Frame) (body : List Token) :
    runtimeName ∈ qualifiers false (closureCode buf type f body).tokens := by
  simp [closureCode, qualifiers, qualifiersIn, Token.word, Token.mark, Token.enclose, isPunct]

end Code

namespace Signature

/-- A name of the signature is that of the runtime package, and the code selects from that name. -/
def HidesRuntime (s : Signature) (p : Code.Piece) : Prop :=
  Code.runtimeName ∈ s.names ∧ Code.runtimeName ∈ Token.qualifiers false p.tokens

/-- The names of the signature are distinct ones that can be used, and in code that the body can hold, which writes
to the buffer `buf`, the runtime package is not hidden by any. -/
structure WellFormed (s : Signature) (buf : Text) : Prop where
  named : ∀ n ∈ s.names, Code.isName n = true ∧ n ≠ utf8 "_"
  distinct : s.names.Nodup
  sections : ∀ pos name body, ¬ s.HidesRuntime (Code.defineCall buf pos name body)
  closures : ∀ type f body, ¬ s.HidesRuntime (Code.closureCode buf type f body)

end Signature

/-! ## The signature of Render -/

namespace ViewFile

/-- The signature of the method that writes the view. -/
def renderSignature (f : ViewFile) (model : Text) : Signature where
  receiver := ⟨utf8 "v", utf8 "*" ++ f.type⟩
  method := utf8 "Render"
  parameters := [⟨f.buffer, utf8 "*runtime.Buffer"⟩, ⟨Directive.contextName, utf8 "runtime.Context"⟩,
    ⟨utf8 "services", utf8 "runtime.Services"⟩, ⟨utf8 "model", model⟩]

theorem renderHeader_eq (f : ViewFile) (model : Text) :
    f.renderHeader model = utf8 "// Render writes the view to " ++ f.buffer ++ utf8 ".\n" ++
      (f.renderSignature model).print ++ utf8 " \x7b" := by
  have hreceiver : utf8 "func (v *" = utf8 "func (" ++ utf8 "v" ++ utf8 " " ++ utf8 "*" := by decide
  have hmethod : utf8 "Render(" = utf8 "Render" ++ utf8 "(" := by decide
  have hbuffer : utf8 " *runtime.Buffer, " = utf8 " " ++ utf8 "*runtime.Buffer" ++ utf8 ", " := by decide
  have hfixed : utf8 "ctx runtime.Context, services runtime.Services, model " =
      Directive.contextName ++ utf8 " " ++ utf8 "runtime.Context" ++ utf8 ", " ++ utf8 "services" ++ utf8 " " ++
        utf8 "runtime.Services" ++ utf8 ", " ++ utf8 "model" ++ utf8 " " := by decide
  simp only [renderHeader, method, hreceiver, hmethod, hbuffer, hfixed, renderSignature, Signature.print,
    Parameter.print, List.map_cons, List.map_nil, Text.intercalate, List.append_assoc]

/-- The names that a buffer cannot have: those of the other parameters and of the receiver, the blank one, and that of
the runtime package. -/
def takenNames : List Text :=
  [utf8 "v", Directive.contextName, utf8 "services", utf8 "model", utf8 "_", Code.runtimeName]

theorem names_renderSignature (f : ViewFile) (model : Text) : (f.renderSignature model).names =
    [utf8 "v", f.buffer, Directive.contextName, utf8 "services", utf8 "model"] := rfl

theorem wellFormed_renderSignature (f : ViewFile) (model : Text) (h : Code.isName f.buffer = true) :
    (f.renderSignature model).WellFormed f.buffer ↔ f.buffer ∉ takenNames := by
  constructor
  · intro hwell htaken
    have hdistinct := hwell.distinct
    have hblank : f.buffer ≠ utf8 "_" := (hwell.named f.buffer (by simp [names_renderSignature])).2
    have hruntime : Code.runtimeName ∉ (f.renderSignature model).names := by
      intro hmem
      exact hwell.sections none [] [] ⟨hmem, Code.runtimeName_mem_defineCall f.buffer none [] []⟩
    rw [names_renderSignature] at hdistinct hruntime
    simp only [takenNames, List.mem_cons, List.not_mem_nil, or_false] at htaken
    rcases htaken with hv | hctx | hservices | hmodel | hbad | hbad
    · simp [hv] at hdistinct
    · simp [hctx] at hdistinct
    · simp [hservices] at hdistinct
    · simp [hmodel] at hdistinct
    · exact hblank hbad
    · simp [hbad] at hruntime
  · intro hfree
    simp only [takenNames, List.mem_cons, List.not_mem_nil, or_false, not_or] at hfree
    obtain ⟨hv, hctx, hservices, hmodel, hblank, hruntime⟩ := hfree
    have hvisible : Code.runtimeName ∉ (f.renderSignature model).names := by
      rw [names_renderSignature]
      have hothers : Code.runtimeName ∉ [utf8 "v", Directive.contextName, utf8 "services", utf8 "model"] := by decide
      intro hmem
      rcases List.mem_cons.mp hmem with heq | hmem
      · exact hothers (by simp [← heq])
      · rcases List.mem_cons.mp hmem with heq | hmem
        · exact hruntime heq.symm
        · exact hothers (List.mem_cons_of_mem _ hmem)
    refine ⟨?_, ?_, fun _ _ _ hhides => hvisible hhides.1, fun _ _ _ hhides => hvisible hhides.1⟩
    · intro n hn
      rw [names_renderSignature] at hn
      have hothers : ∀ n ∈ [utf8 "v", Directive.contextName, utf8 "services", utf8 "model"],
          Code.isName n = true ∧ n ≠ utf8 "_" := by decide
      rcases List.mem_cons.mp hn with rfl | hn
      · exact hothers _ List.mem_cons_self
      · rcases List.mem_cons.mp hn with rfl | hn
        · exact ⟨h, hblank⟩
        · exact hothers n (List.mem_cons_of_mem _ hn)
    · have hothers : [utf8 "v", Directive.contextName, utf8 "services", utf8 "model"].Nodup := by decide
      have hfresh : f.buffer ∉ [utf8 "v", Directive.contextName, utf8 "services", utf8 "model"] := by
        simp [hv, hctx, hservices, hmodel]
      have hall : (f.buffer :: [utf8 "v", Directive.contextName, utf8 "services", utf8 "model"]).Nodup :=
        List.nodup_cons.mpr ⟨hfresh, hothers⟩
      rw [names_renderSignature]
      exact (List.Perm.swap _ _ _).nodup_iff.mp hall

theorem buffer_ofTemplate {settings : Settings} {t : Template} {w w' : World} {f : ViewFile}
    (h : ofTemplate settings t w = .ok f w') : f.buffer = settings.buffer := by
  obtain ⟨code, w₁, -, hret⟩ := WorldM.bind_eq_ok h
  cases hret
  rfl

/-- The file in its layout holds the beginning of the method that writes the view. -/
theorem formatted_renderHeader {f : ViewFile} {out : Text} (h : f.formatted = some out) :
    ∃ before after : Text, out = before ++ f.renderHeader (Code.typeText f.model) ++ after := by
  unfold formatted at h
  by_cases hwell : f.isWellNamed = true
  · simp only [hwell, Bool.not_true, Bool.false_eq_true, if_false, Option.bind_eq_bind, Option.bind_eq_some_iff] at h
    obtain ⟨functions, -, fields, -, methods, -, body, -, hout⟩ := h
    exact ⟨_, body.tail ++ utf8 "\n", (Option.some.inj hout).symm.trans (List.append_assoc _ _ _)⟩
  · simp [hwell] at h

end ViewFile

theorem Config.isName_buffer {c : Config} (h : c.fault? = none) : Code.isName c.buffer = true := by
  by_cases hname : Code.isName c.buffer = true
  · exact hname
  · simp [fault?, hname] at h

namespace Template

/-- A site without files, whose buffers are called `ctx`. -/
def sampleClash : Site where
  files := ⟨[], false⟩
  config := { buffer := utf8 "ctx" }

/-- A view that writes one text. -/
def sampleText : Template where
  path := utf8 "a.rhtml"
  declared := {}
  nodes := [.text none (utf8 "X")]

end Template
end Atmark
