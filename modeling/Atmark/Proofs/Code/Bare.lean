import Atmark.Proofs.Code.Unplaced

/-! Where a text stands does not show in the code. Positions of nodes become positions of tokens, which
decide nothing while nodes are lowered, and tokens are printed without them; so nodes that are bare the same
have the same code as text (`ofNodes_bare`). -/
namespace Atmark
open Node

namespace Code

/-- Where the texts stand does not show in the pieces. -/
theorem piecesFrom_bare (buf : Text) (ns : List Node) (pending : Text) (p p' : Option Position) :
    (piecesFrom buf pending p (bareAll ns)).map Piece.unplaced =
      (piecesFrom buf pending p' ns).map Piece.unplaced := by
  have h := piecesFrom_placeless buf (bareAll ns) pending p p
  rw [placelessAll_bareAll] at h
  exact h.symm.trans (piecesFrom_placeless buf ns pending p p')

end Code

/-! ## Contents that are read when nodes are lowered -/

namespace WorldM

/-- The world that a step leaves. -/
def after {α : Type} (m : WorldM α) (w : World) : World :=
  match m w with
  | .ok _ w => w
  | .error _ w => w

/-- The step changes nothing in the world but the log. -/
def OnlyLogs {α : Type} (m : WorldM α) : Prop := ∀ w, m.after w = { w with log := (m.after w).log }

/-- The steps only log, and end with the same error or with results that are the same under `f`, whatever
their worlds are. -/
structure Agree {α β : Type} (f : α → β) (m m' : WorldM α) : Prop where
  outcome : ∀ w w', (m.outcome w).map f = (m'.outcome w').map f
  logs : OnlyLogs m ∧ OnlyLogs m'

namespace Agree
variable {α β γ δ : Type} {f : α → β} {g : γ → δ}

theorem trans {m m' m'' : WorldM α} (h : Agree f m m') (h' : Agree f m' m'') : Agree f m m'' :=
  ⟨fun w w' => (h.outcome w w').trans (h'.outcome w' w'), h.logs.1, h'.logs.2⟩

theorem symm {m m' : WorldM α} (h : Agree f m m') : Agree f m' m :=
  ⟨fun w w' => (h.outcome w' w).symm, h.logs.2, h.logs.1⟩

theorem onlyLogs_bind {m : WorldM α} {k : α → WorldM γ} (hm : OnlyLogs m)
    (hk : ∀ a w w', m w = .ok a w' → OnlyLogs (k a)) : OnlyLogs (m >>= k) := by
  intro w
  have hw := hm w
  simp only [after, Bind.bind, EStateM.bind] at hw ⊢
  cases h : m w with
  | ok a w₁ =>
    have hw₁ := hk a w w₁ h w₁
    simp only [h] at hw ⊢
    simp only [after] at hw₁
    rw [hw₁, hw]
  | error e w₁ =>
    simp only [h] at hw ⊢
    exact hw

theorem bind {m m' : WorldM α} {k k' : α → WorldM γ} (hm : Agree f m m')
    (hk : ∀ a b, f a = f b → Agree g (k a) (k' b)) : Agree g (m >>= k) (m' >>= k') := by
  have hends (w w' : World) : (∃ a b w₁ w₁', m w = .ok a w₁ ∧ m' w' = .ok b w₁' ∧ f a = f b) ∨
      ∃ e w₁ w₁', m w = .error e w₁ ∧ m' w' = .error e w₁' := by
    have h := hm.outcome w w'
    simp only [WorldM.outcome] at h
    cases hw : m w <;> cases hw' : m' w' <;> simp_all [Except.map]
  refine ⟨fun w w' => ?_, onlyLogs_bind hm.logs.1 ?_, onlyLogs_bind hm.logs.2 ?_⟩
  · simp only [WorldM.outcome, Bind.bind, EStateM.bind]
    rcases hends w w' with ⟨a, b, w₁, w₁', hw, hw', hab⟩ | ⟨e, w₁, w₁', hw, hw'⟩
    · rw [hw, hw']
      exact (hk a b hab).outcome w₁ w₁'
    · rw [hw, hw']
  · intro a w w₁ hw
    rcases hends w w with ⟨a', b, _, _, hw', _, hab⟩ | ⟨e, _, _, hw', _⟩
    · cases hw.symm.trans hw'
      exact (hk a b hab).logs.1
    · cases hw.symm.trans hw'
  · intro b w w₁ hw
    rcases hends w w with ⟨a, b', _, _, _, hw', hab⟩ | ⟨e, _, _, _, hw'⟩
    · cases hw.symm.trans hw'
      exact (hk a b hab).logs.2
    · cases hw.symm.trans hw'

theorem pure {a b : α} (h : f a = f b) : Agree f (Pure.pure a) (Pure.pure b) :=
  ⟨fun _ _ => congrArg Except.ok h, fun _ => rfl, fun _ => rfl⟩

theorem mono {m m' : WorldM α} (h : Agree f m m') {k : α → δ}
    (hk : ∀ a b, f a = f b → k a = k b) : Agree k m m' := by
  refine ⟨fun w w' => ?_, h.logs⟩
  have hout := h.outcome w w'
  cases hm : m.outcome w <;> cases hm' : m'.outcome w' <;> simp_all [Except.map]
  exact hk _ _ hout

theorem outcome_eq {m m' : WorldM α} (h : Agree id m m') (w w' : World) :
    m.outcome w = m'.outcome w' := by
  have hout := h.outcome w w'
  cases hm : m.outcome w <;> cases hm' : m'.outcome w' <;> simp_all [Except.map]

theorem cache_after {m m' : WorldM α} (h : Agree f m m') (w : World) : (m.after w).cache = w.cache := by
  rw [h.logs.1 w]

end Agree
end WorldM

namespace Code
open WorldM Token

theorem externalText_agree (settings : Settings) (pos : Option Position) (path includer : Text)
    (markdown : Bool) : Agree id (externalText settings pos path includer markdown)
      (externalText settings pos path includer markdown) := by
  have hends (w w' : World) :
      (externalText settings pos path includer markdown).outcome w =
        (externalText settings pos path includer markdown).outcome w' ∧
      ∃ log, (externalText settings pos path includer markdown).after w = { w with log } := by
    unfold externalText
    rcases Content.read settings.files includer path pos with ⟨result, tried⟩
    cases result with
    | error e => cases tried <;> exact ⟨rfl, _, rfl⟩
    | ok found =>
      obtain ⟨data, file⟩ := found
      cases markdown with
      | false => cases tried <;> exact ⟨rfl, _, rfl⟩
      | true =>
        cases hrender : Content.renderMarkdown settings data pos <;> cases tried <;>
          simp only [hrender] <;> exact ⟨rfl, _, rfl⟩
  have hlogs : OnlyLogs (externalText settings pos path includer markdown) := by
    intro w
    obtain ⟨-, log, hlog⟩ := hends w w
    rw [hlog]
  exact ⟨fun w w' => congrArg _ (hends w w').1, hlogs, hlogs⟩

/-- A node that holds a list agrees if the list does. -/
theorem resolveInner_agree {mk : List Node → Node} {m m' : WorldM (List Node)}
    (hmk : ∀ ns, (mk ns).bare = mk (bareAll ns)) (h : Agree bareAll m m') :
    Agree bare (do return mk (← m)) (do return mk (← m')) := by
  refine h.bind fun ns ns' hns => .pure ?_
  rw [hmk, hmk, hns]

mutual

theorem resolveNode_bare (settings : Settings) : (n : Node) →
    Agree bare (resolveNode settings n.bare) (resolveNode settings n)
  | .external p path includer markdown => by
    simp only [bare, resolveNode]
    refine (externalText_agree settings p path includer markdown).bind fun t t' ht => .pure ?_
    rw [show t = t' from ht]
  | .group f ns => by
    simp only [bare, resolveNode]
    exact resolveInner_agree (fun _ => by rw [bare]) (resolve_bare settings ns)
  | .attrValue .. => by
    simp only [bare, resolveNode]
    exact resolveInner_agree (fun _ => by rw [bare]) (resolve_bare settings _)
  | .write _ e => by
    simp only [bare, resolveNode]
    exact resolveInner_agree (fun _ => by rw [bare]) (resolve_bare settings e)
  | .closure _ _ ns => by
    simp only [bare, resolveNode]
    exact resolveInner_agree (fun _ => by rw [bare]) (resolve_bare settings ns)
  | .define _ _ ns => by
    simp only [bare, resolveNode]
    exact resolveInner_agree (fun _ => by rw [bare]) (resolve_bare settings ns)
  | .text .. | .ident _ | .literal _ | .punct _ | .tagStart .. | .tagVoid .. | .tagEnd ..
  | .closeStart .. | .closeSelf .. | .closeVoid .. | .attrName .. | .attrEquals .. => .pure rfl

theorem resolve_bare (settings : Settings) : (ns : List Node) →
    Agree bareAll (resolve settings (bareAll ns)) (resolve settings ns)
  | [] => .pure rfl
  | n :: ns => by
    simp only [bareAll, resolve]
    refine (resolveNode_bare settings n).bind fun n₁ n₂ hn => ?_
    refine (resolve_bare settings ns).bind fun ns₁ ns₂ hns => .pure ?_
    rw [bareAll, bareAll, hn, hns]

end

/-- Nodes that are bare the same have the same code but for positions, or fail with the same error. -/
theorem ofNodes_unplaced (settings : Settings) {ns ns' : List Node} (h : bareAll ns = bareAll ns') :
    Agree unplacedAll (ofNodes settings ns) (ofNodes settings ns') := by
  have hns := (resolve_bare settings ns).symm
  rw [h] at hns
  refine (hns.trans (resolve_bare settings ns')).bind fun ms ms' hms => .pure ?_
  have hcode (ms : List Node) :
      unplacedAll (lower settings.buffer (bareAll ms)) = unplacedAll (lower settings.buffer ms) :=
    join_unplaced (piecesFrom_bare settings.buffer ms [] none none)
  rw [← hcode ms, ← hcode ms', hms]

/-- They have the same code as text. -/
theorem ofNodes_bare (settings : Settings) {ns ns' : List Node} (h : bareAll ns = bareAll ns') :
    Agree Token.format (ofNodes settings ns) (ofNodes settings ns') :=
  (ofNodes_unplaced settings h).mono fun _ _ => format_congr

end Code
end Atmark
