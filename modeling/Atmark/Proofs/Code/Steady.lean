import Atmark.Proofs.Cache.Steady
import Atmark.Proofs.Code.Generated

/-! Making code once more with other files. Contents that were left for later are read when code is made, by the
names in the files that the templates reach. As long as these lead where they led, the same code is made
(`Template.generate_follows`). -/
namespace Atmark
open Node WorldM

namespace WorldM
variable {α β : Type}

/-- Whatever the first step returns, the second one returns it too, in any world. -/
def Follows (m m' : WorldM α) : Prop := ∀ a w w', m.outcome w = .ok a → m'.outcome w' = .ok a

theorem outcome_ok {m : WorldM α} {w : World} {a : α} : m.outcome w = .ok a ↔ ∃ w₁, m w = .ok a w₁ := by
  unfold WorldM.outcome
  cases m w <;> simp

namespace Follows

theorem bind {m m' : WorldM α} {f f' : α → WorldM β} (hm : Follows m m') (hf : ∀ a, Follows (f a) (f' a)) :
    Follows (m >>= f) (m' >>= f') := by
  intro b w w' h
  rw [outcome_ok] at h
  obtain ⟨w₂, h⟩ := h
  simp only [Bind.bind, EStateM.bind] at h
  cases hstep : m w with
  | error e w₁ =>
    rw [hstep] at h
    cases h
  | ok a w₁ =>
    rw [hstep] at h
    obtain ⟨w₁', hstep'⟩ := outcome_ok.mp (hm a w w' (outcome_ok.mpr ⟨w₁, hstep⟩))
    have hrest := hf a b w₁ w₁' (outcome_ok.mpr ⟨w₂, h⟩)
    simpa only [WorldM.outcome, Bind.bind, EStateM.bind, hstep'] using hrest

theorem pure (a : α) : Follows (Pure.pure a) (Pure.pure a) := fun _ _ _ h => h

theorem note (message : String) (fields : List (String × Text)) :
    Follows (WorldM.note message fields) (WorldM.note message fields) := fun _ _ _ h => h

theorem throw (e : Error) (m : WorldM α) : Follows (MonadExcept.throw e) m := by
  intro a w w' h
  cases h

end Follows
end WorldM

/-- The settings are the same but for the files, and what may be left for later is found in both. -/
structure Settings.Recalls (settings settings' : Settings)
    (later : Option Position → Text → Text → Bool → Prop) : Prop where
  alike : settings' = { settings with files := settings'.files }
  leads : ∀ pos name file markdown, later pos name file markdown → ∀ found data,
    settings.Leads file name found data → settings'.Leads file name found data

variable {settings settings' : Settings} {later : Option Position → Text → Text → Bool → Prop}

namespace Code

theorem externalText_follows (h : settings.Recalls settings' later) {pos : Option Position} {path includer : Text}
    {markdown : Bool} (hlater : later pos path includer markdown) :
    Follows (externalText settings pos path includer markdown)
      (externalText settings' pos path includer markdown) := by
  have hmarkdown : settings'.markdown = settings.markdown := by rw [h.alike]
  have hleads := h.leads pos path includer markdown hlater
  unfold externalText
  rcases hread : Content.read settings.files includer path pos with ⟨result, tried⟩
  rcases hread' : Content.read settings'.files includer path pos with ⟨result', tried'⟩
  cases result with
  | error e =>
    cases tried with
    | none => exact .throw _ _
    | some attempt =>
      intro a w w' hout
      cases hout
  | ok found =>
    obtain ⟨data, file⟩ := found
    have hfound := (Settings.leads_iff pos).mp (hleads file data ((Settings.leads_iff pos).mpr (by rw [hread])))
    rw [hread'] at hfound
    cases hfound
    have hrender : Content.renderMarkdown settings' data pos = Content.renderMarkdown settings data pos := by
      unfold Content.renderMarkdown
      rw [hmarkdown]
    intro a w w' hout
    dsimp only at hout ⊢
    rw [hrender]
    cases markdown with
    | false => cases tried <;> cases tried' <;> exact hout
    | true =>
      cases hhtml : Content.renderMarkdown settings data pos <;> rw [hhtml] at hout <;> cases tried <;>
        cases tried' <;> exact hout

mutual

theorem resolveNode_follows (h : settings.Recalls settings' later) : (n : Node) → n.postpones later →
    (∀ l ∈ n.lists, Postpone later l) → Follows (resolveNode settings n) (resolveNode settings' n)
  | .external p path includer markdown, hn, _ => by
    rw [resolveNode, resolveNode]
    exact (externalText_follows h hn).bind fun _ => .pure _
  | .group _ ns, _, hl | .write _ ns, _, hl | .attrValue _ _ ns, _, hl | .closure _ _ ns, _, hl
  | .define _ _ ns, _, hl => by
    rw [resolveNode, resolveNode]
    exact (resolve_follows h ns (hl ns (by simp [lists]))).bind fun _ => .pure _
  | .text .., _, _ | .ident _, _, _ | .literal _, _, _ | .punct _, _, _ | .tagStart .., _, _
  | .tagVoid .., _, _ | .tagEnd .., _, _ | .closeStart .., _, _ | .closeSelf .., _, _ | .closeVoid .., _, _
  | .attrName .., _, _ | .attrEquals .., _, _ => .pure _

theorem resolve_follows (h : settings.Recalls settings' later) : (ns : List Node) → Postpone later ns →
    Follows (resolve settings ns) (resolve settings' ns)
  | [], _ => .pure _
  | n :: ns, hlater => by
    obtain ⟨hn, hl, hns⟩ := allWithin_cons.mp hlater
    rw [resolve, resolve]
    exact (resolveNode_follows h n hn hl).bind fun _ => (resolve_follows h ns hns).bind fun _ => .pure _

end

end Code

/-- With the other files the view of a template is what it was. -/
theorem ViewFile.ofTemplate_follows (h : settings.Recalls settings' later) {t : Template}
    (ht : Postpone later t.nodes) : Follows (ofTemplate settings t) (ofTemplate settings' t) := by
  have hbuffer : settings'.buffer = settings.buffer := by rw [h.alike]
  have hpackage : settings'.package = settings.package := by rw [h.alike]
  have hcoalesce : settings'.coalesce = settings.coalesce := by rw [h.alike]
  have hnodes : Follows (Code.ofNodes settings t.nodes) (Code.ofNodes settings' t.nodes) := by
    unfold Code.ofNodes
    rw [hbuffer]
    exact (Code.resolve_follows h t.nodes ht).bind fun _ => .pure _
  unfold ofTemplate
  rw [hbuffer, hpackage, hcoalesce]
  exact hnodes.bind fun _ => .pure _

/-- So is the file that is generated from it. -/
theorem Template.generate_follows (h : settings.Recalls settings' later) {t : Template}
    (ht : Postpone later t.nodes) : Follows (t.generate settings) (t.generate settings') := by
  refine (ViewFile.ofTemplate_follows h ht).bind fun file => ?_
  dsimp only
  split
  · exact (Follows.note _ _).bind fun _ => .pure _
  · exact (Follows.note _ _).bind fun _ => .throw _ _

end Atmark
