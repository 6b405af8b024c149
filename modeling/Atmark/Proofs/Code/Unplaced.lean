import Atmark.Code.Lower
import Atmark.Proofs.Code.Separation
import Atmark.Proofs.Node.Unplaced

/-! Where nodes stand does not show in the code. Positions of nodes become positions of tokens, which decide
nothing while nodes are lowered; so nodes that differ in positions only have code that does (`ofNodes_concur`). -/
namespace Atmark
open Node

namespace Code
open Token

/-! ## Pieces -/

/-- The piece without the positions in it. -/
def Piece.unplaced (p : Piece) : Piece := { p with tokens := unplacedAll p.tokens }

/-- Whether the last token is a semicolon does not depend on positions. -/
theorem getLast?_unplacedAll {ts ts' : List Token} (h : unplacedAll ts = unplacedAll ts')
    {last last' : Option Token} (hlast : last.map Token.unplaced = last'.map Token.unplaced) :
    (ts.getLast?.or last).map Token.unplaced = (ts'.getLast?.or last').map Token.unplaced := by
  rw [unplacedAll_eq_map, unplacedAll_eq_map] at h
  have h := congrArg List.getLast? h
  rw [List.getLast?_map, List.getLast?_map] at h
  cases hts : ts.getLast? <;> cases hts' : ts'.getLast? <;> simp_all

theorem any_isPunct_unplaced {last last' : Option Token}
    (h : last.map Token.unplaced = last'.map Token.unplaced) :
    last.any (!·.isPunct ';') = last'.any (!·.isPunct ';') := by
  have hany := congrArg (Option.any (!·.isPunct ';')) h
  simpa [Option.any_map, Function.comp_def] using hany

theorem joinFrom_unplaced {ps ps' : List Piece} (h : ps.map Piece.unplaced = ps'.map Piece.unplaced)
    {last last' : Option Token} (hlast : last.map Token.unplaced = last'.map Token.unplaced) :
    unplacedAll (joinFrom last ps) = unplacedAll (joinFrom last' ps') := by
  induction ps generalizing ps' last last' with
  | nil =>
    cases ps' with
    | nil => rfl
    | cons p ps => cases h
  | cons p ps ih =>
    cases ps' with
    | nil => cases h
    | cons p' ps' =>
      obtain ⟨hp, hps⟩ := List.cons.inj h
      obtain ⟨htokens, hstatement⟩ := Piece.mk.inj hp
      have hrest := ih hps (getLast?_unplacedAll htokens hlast)
      simp only [joinFrom, unplacedAll_append, htokens, hrest, hstatement, any_isPunct_unplaced hlast]
      split <;> rfl

theorem join_unplaced {ps ps' : List Piece} (h : ps.map Piece.unplaced = ps'.map Piece.unplaced) :
    unplacedAll (join ps) = unplacedAll (join ps') := joinFrom_unplaced h rfl

theorem unplacedAll_unspaced (ts : List Token) :
    unplacedAll (unspaced ts) = unspaced (unplacedAll ts) := by
  cases ts with
  | nil => rfl
  | cons t ts => simp [unspaced, unplacedAll, unplaced_withSpace]

theorem flush_unplaced (buf t : Text) (pos pos' : Option Position) :
    (flush buf t pos).map Piece.unplaced = (flush buf t pos').map Piece.unplaced := by
  unfold flush
  split <;> rfl

section Bodies
variable {buf : Text} {ts ts' : List Token} (h : unplacedAll ts = unplacedAll ts')
include h

theorem writeValue_unplaced (pos pos' : Option Position) :
    (writeValue buf ts pos).unplaced = (writeValue buf ts' pos').unplaced := by
  simp only [writeValue, call, Piece.unplaced, unplacedAll, enclose, unplaced, unplacedAll_unspaced, h, word, mark]

theorem defineCall_unplaced (pos pos' : Option Position) (name : Text) :
    (defineCall buf pos name ts).unplaced = (defineCall buf pos' name ts').unplaced := by
  simp only [defineCall, Piece.unplaced, unplacedAll, enclose, unplaced, h, word, mark, Literal.ofText]

theorem closureCode_unplaced (type : Ident) (f : Frame) (pos pos' : Option Position) :
    (closureCode buf { type with pos } { f with pos := pos' } ts).unplaced = (closureCode buf type f ts').unplaced := by
  have hlast := any_isPunct_unplaced (getLast?_unplacedAll h (Eq.refl (Option.map _ none)))
  rw [Option.or_none, Option.or_none] at hlast
  have hseparator (b : Bool) (pos : Option Position) :
      unplacedAll (if b = true then [mark pos ';'] else []) = if b = true then [mark none ';'] else [] := by
    cases b <;> rfl
  simp only [closureCode, Piece.unplaced, unplacedAll, unplaced, unplacedAll_append, h, hlast, hseparator]
  rfl

end Bodies

mutual

theorem nodePieces_placeless (buf : Text) : (n : Node) →
    (nodePieces buf n.placeless).map Piece.unplaced = (nodePieces buf n).map Piece.unplaced
  | .group f ns => by
    have h := join_unplaced (piecesFrom_placeless buf ns [] none none)
    simp only [Node.placeless, nodePieces, List.map_cons, List.map_nil, Piece.unplaced, unplacedAll, unplaced, h]
  | .attrValue _ v e => by
    have h := join_unplaced (piecesFrom_placeless buf e [] none none)
    have hrun : v.placeless.run.isEmpty = v.run.isEmpty := by
      cases hv : v.run <;> simp [StaticValue.placeless, hv, unplacedAll]
    have hliteral : v.placeless.literal.isNone = v.literal.isNone := by
      cases hv : v.literal <;> simp [StaticValue.placeless, hv]
    have hstatic : staticText v.placeless = staticText v := by
      unfold staticText
      rw [hrun, hliteral, StaticValue.content_placeless]
      rfl
    simp only [Node.placeless, nodePieces, Node.isEmpty_placelessAll, hrun]
    split
    · simp only [List.map_cons, List.map_nil]
      rw [writeValue_unplaced h none _]
      rfl
    · rw [hstatic]
      rfl
  | .write _ e => by
    have h := join_unplaced (piecesFrom_placeless buf e [] none none)
    simp only [Node.placeless, nodePieces, List.map_cons, List.map_nil]
    exact congrArg (· :: []) (writeValue_unplaced h _ _)
  | .closure _ _ ns => by
    have h := join_unplaced (piecesFrom_placeless buf ns [] none none)
    simp only [Node.placeless, nodePieces, List.map_cons, List.map_nil, closureCode_unplaced h]
  | .define _ _ ns => by
    have h := join_unplaced (piecesFrom_placeless buf ns [] none none)
    simp only [Node.placeless, nodePieces, List.map_cons, List.map_nil]
    exact congrArg (· :: []) (defineCall_unplaced h _ _ _)
  | .text p t => by
    simp only [Node.placeless, nodePieces]
    exact flush_unplaced buf t none p
  | .closeVoid _ _ slash => by
    have hslash : (slash.map fun p : Punct => { p with pos := none }).isSome = slash.isSome := by cases slash <;> rfl
    simp only [Node.placeless, nodePieces, hslash]
    rfl
  | .attrName _ _ _ quoted => by
    cases quoted <;> simp only [Node.placeless, nodePieces] <;> rfl
  | .external .. => by simp only [Node.placeless, nodePieces]
  | .ident _ | .literal _ | .punct _ | .tagStart .. | .tagVoid .. | .tagEnd .. | .closeStart ..
  | .closeSelf .. | .attrEquals .. => by
    simp only [Node.placeless, nodePieces]
    rfl

theorem piecesFrom_placeless (buf : Text) : (ns : List Node) → ∀ pending p p',
    (piecesFrom buf pending p (placelessAll ns)).map Piece.unplaced =
      (piecesFrom buf pending p' ns).map Piece.unplaced
  | [], pending, p, p' => flush_unplaced buf pending p p'
  | n :: ns, pending, p, p' => by
    have hnode := nodePieces_placeless buf n
    have hflush := flush_unplaced buf pending p p'
    have hrest := piecesFrom_placeless buf ns
    cases n with
    | text _ _ =>
      simp only [placelessAll, placeless, piecesFrom]
      exact hrest _ _ _
    | _ =>
      simp only [placeless] at hnode
      simp only [placelessAll, placeless, piecesFrom, List.map_append, hrest [] none none, hflush, hnode]

end

end Code

/-! ## Contents that are read when nodes are lowered -/

namespace WorldM

/-- What a step ends with, whatever it leaves in the world. -/
def outcome {α : Type} (m : WorldM α) (w : World) : Except Error α :=
  match m w with
  | .ok a _ => .ok a
  | .error e _ => .error e

/-- Whatever their worlds are, the steps fail both, or end with results that are the same under `f`. -/
def Concur {α β : Type} (f : α → β) (m m' : WorldM α) : Prop :=
  ∀ w w', (m.outcome w).toOption.map f = (m'.outcome w').toOption.map f

namespace Concur
variable {α β γ δ : Type} {f : α → β} {g : γ → δ}

theorem trans {m m' m'' : WorldM α} (h : Concur f m m') (h' : Concur f m' m'') : Concur f m m'' :=
  fun w w' => (h w w').trans (h' w' w')

theorem symm {m m' : WorldM α} (h : Concur f m m') : Concur f m' m := fun w w' => (h w' w).symm

/-- Where one of the steps returns, so does the other one. -/
theorem exists_ok {m m' : WorldM α} (h : Concur f m m') {w w₁ : World} {a : α} (hm : m w = .ok a w₁) (w' : World) :
    ∃ b w₂, m' w' = .ok b w₂ ∧ f a = f b := by
  have h := h w w'
  simp only [outcome, hm] at h
  cases hm' : m' w' with
  | ok b w₂ =>
    rw [hm'] at h
    exact ⟨b, w₂, rfl, Option.some.inj h⟩
  | error e w₂ =>
    rw [hm'] at h
    cases h

theorem mono {m m' : WorldM α} (h : Concur f m m') {g : α → γ} (hg : ∀ a b, f a = f b → g a = g b) : Concur g m m' := by
  intro w w'
  have hsame := h w w'
  cases hm : (m.outcome w).toOption with
  | none =>
    rw [hm] at hsame
    rw [Option.map_eq_none_iff.mp hsame.symm]
  | some a =>
    rw [hm] at hsame
    obtain ⟨b, hm', hab⟩ := Option.map_eq_some_iff.mp hsame.symm
    rw [hm']
    exact congrArg some (hg a b hab.symm)

theorem pure {a b : α} (h : f a = f b) : Concur f (Pure.pure a) (Pure.pure b) := fun _ _ => congrArg some h

theorem bind {m m' : WorldM α} {k k' : α → WorldM γ} (hm : Concur f m m')
    (hk : ∀ a b, f a = f b → Concur g (k a) (k' b)) : Concur g (m >>= k) (m' >>= k') := by
  intro w w'
  have h := hm w w'
  simp only [outcome, Bind.bind, EStateM.bind] at h ⊢
  cases hw : m w with
  | ok a v =>
    cases hw' : m' w' with
    | ok b v' =>
      rw [hw, hw'] at h
      exact hk a b (Option.some.inj h) v v'
    | error e v' =>
      rw [hw, hw'] at h
      cases h
  | error e v =>
    cases hw' : m' w' with
    | ok b v' =>
      rw [hw, hw'] at h
      cases h
    | error e' v' => rfl

end Concur
end WorldM

/-- Which file is read does not depend on where it is mentioned. -/
theorem Content.read_congr (files : Option Files) (file name : Text) (pos pos' : Option Position) :
    ((Content.read files file name pos).1.toOption, (Content.read files file name pos).2) =
      ((Content.read files file name pos').1.toOption, (Content.read files file name pos').2) := by
  unfold Content.read
  split
  · rfl
  cases Path.resolve? file name with
  | none => rfl
  | some found =>
    cases files with
    | none => rfl
    | some fs =>
      dsimp only
      cases fs.read found.1 with
      | ok data => rfl
      | error e =>
        dsimp only
        split
        · rfl
        · cases fs.read found.2 <;> rfl

namespace Code
open WorldM

theorem externalText_concur (settings : Settings) (pos pos' : Option Position) (path includer : Text)
    (markdown : Bool) : Concur id (externalText settings pos path includer markdown)
      (externalText settings pos' path includer markdown) := by
  intro w w'
  have hread := Content.read_congr settings.files includer path pos pos'
  simp only [outcome, externalText]
  revert hread
  rcases Content.read settings.files includer path pos with ⟨result, tried⟩
  rcases Content.read settings.files includer path pos' with ⟨result', tried'⟩
  intro hread
  obtain ⟨hresult, rfl⟩ := Prod.mk.inj hread
  cases result with
  | error e =>
    cases result' with
    | error e' => cases tried <;> rfl
    | ok found => cases hresult
  | ok found =>
    cases result' with
    | error e => cases hresult
    | ok found' =>
      cases hresult
      cases markdown with
      | false => cases tried <;> rfl
      | true =>
        cases hmarkdown : settings.markdown found.1 <;> cases tried <;>
          simp only [Content.renderMarkdown, hmarkdown] <;> rfl

/-- A node that holds a list ends as the list does. -/
theorem resolveInner_concur {mk mk' : List Node → Node} {m m' : WorldM (List Node)}
    (hmk : ∀ ns ns', placelessAll ns = placelessAll ns' → (mk ns).placeless = (mk' ns').placeless)
    (h : Concur placelessAll m m') :
    Concur placeless (do return mk (← m)) (do return mk' (← m')) :=
  h.bind fun ns ns' hns => .pure (hmk ns ns' hns)

mutual

theorem resolveNode_placeless (settings : Settings) : (n : Node) →
    Concur placeless (resolveNode settings n.placeless) (resolveNode settings n)
  | .external p path includer markdown => by
    simp only [placeless, resolveNode]
    refine (externalText_concur settings none p path includer markdown).bind fun t t' ht => .pure ?_
    simp only [placeless, show t = t' from ht]
  | .group _ ns => by
    simp only [placeless, resolveNode]
    exact resolveInner_concur (fun _ _ h => by simp only [placeless, h]) (resolve_placeless settings ns)
  | .attrValue _ v e => by
    simp only [placeless, resolveNode]
    refine resolveInner_concur (fun _ _ h => ?_) (resolve_placeless settings e)
    simp only [placeless, StaticValue.placeless_placeless, h]
  | .write _ e => by
    simp only [placeless, resolveNode]
    exact resolveInner_concur (fun _ _ h => by simp only [placeless, h]) (resolve_placeless settings e)
  | .closure _ _ ns => by
    simp only [placeless, resolveNode]
    exact resolveInner_concur (fun _ _ h => by simp only [placeless, h]) (resolve_placeless settings ns)
  | .define _ _ ns => by
    simp only [placeless, resolveNode]
    exact resolveInner_concur (fun _ _ h => by simp only [placeless, h]) (resolve_placeless settings ns)
  | .text .. | .ident _ | .literal _ | .punct _ | .tagStart .. | .tagVoid .. | .tagEnd ..
  | .closeStart .. | .closeSelf .. | .closeVoid .. | .attrName .. | .attrEquals .. => by
    simp only [placeless, resolveNode]
    exact .pure (by simp [placeless, Function.comp_def])

theorem resolve_placeless (settings : Settings) : (ns : List Node) →
    Concur placelessAll (resolve settings (placelessAll ns)) (resolve settings ns)
  | [] => .pure rfl
  | n :: ns => by
    simp only [placelessAll, resolve]
    refine (resolveNode_placeless settings n).bind fun n₁ n₂ hn => ?_
    refine (resolve_placeless settings ns).bind fun ns₁ ns₂ hns => .pure ?_
    rw [placelessAll, placelessAll, hn, hns]

end

/-- Nodes that differ in positions only have the same code but for positions, or fail both. -/
theorem ofNodes_concur (settings : Settings) {ns ns' : List Node} (h : placelessAll ns = placelessAll ns') :
    Concur Token.unplacedAll (ofNodes settings ns) (ofNodes settings ns') := by
  have hns := (resolve_placeless settings ns).symm
  rw [h] at hns
  refine (hns.trans (resolve_placeless settings ns')).bind fun ms ms' hms => .pure ?_
  have hcode (ms : List Node) :
      Token.unplacedAll (lower settings.buffer (placelessAll ms)) = Token.unplacedAll (lower settings.buffer ms) :=
    join_unplaced (piecesFrom_placeless settings.buffer ms [] none none)
  rw [← hcode ms, ← hcode ms', hms]

end Code
end Atmark
