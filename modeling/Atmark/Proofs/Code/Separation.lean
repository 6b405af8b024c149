import Atmark.Code.Lower
import Atmark.Proofs.Node.Nesting
import Atmark.Proofs.Parse.Returns

/-! Where the code of a node starts. Nodes are lowered one after another: calls that write are parted
from the code before them, and code is copied after whatever comes before it (`lower_code`). So the
first token of copied code starts a statement of its own exactly if the last node before it that writes
anything is markup or a semicolon, or if the code itself starts on a new line
(`startsStatement_iff`). -/
namespace Atmark

/-- The token, after others, starts a statement: it is the first one, it follows a semicolon, or it
stands on a new line. -/
def Token.StartsStatement (before : List Token) (t : Token) : Prop :=
  before.getLast?.all (·.isPunct ';') = true ∨ Text.breaksLine t.space = true

namespace Node

/-- Code, which is copied. -/
def isCode : Node → Bool
  | .ident _ | .literal _ | .punct _ | .group .. | .closure .. => true
  | _ => false

theorem isText_of_isCode {n : Node} (h : n.isCode = true) : n.isText = false := by
  cases n with
  | text => cases h
  | _ => rfl

/-- Nothing is written for the node. -/
def isSilent : Node → Bool
  | .text _ t => t.isEmpty
  | .external .. => true
  | _ => false

/-- The code of the node ends with a semicolon: it is a call that writes, or the character itself. -/
def endsWithSemicolon : Node → Bool
  | .punct p => p.char = ';'
  | n => !n.isCode

/-- The white space before the code of a node. -/
def codeSpace : Node → Text
  | .ident t => t.space
  | .literal t => t.space
  | .punct t => t.space
  | .group f _ => f.space
  | .closure .. => utf8 " "
  | _ => []

/-- The code of the nodes is empty or ends with a semicolon. -/
def Parted (ns : List Node) : Bool := (ns.reverse.find? (!·.isSilent)).all endsWithSemicolon

end Node

namespace Code
open Node

/-! ## Pieces one after another -/

/-- The last token of the pieces, after the token `last`. -/
def lastToken (last : Option Token) (ps : List Piece) : Option Token :=
  ps.foldl (fun last p => p.tokens.getLast?.or last) last

theorem lastToken_append (last : Option Token) (ps qs : List Piece) :
    lastToken last (ps ++ qs) = lastToken (lastToken last ps) qs := by
  simp [lastToken]

theorem joinFrom_append (last : Option Token) (ps qs : List Piece) :
    joinFrom last (ps ++ qs) = joinFrom last ps ++ joinFrom (lastToken last ps) qs := by
  induction ps generalizing last with
  | nil => rfl
  | cons p ps ih => simp [joinFrom, ih, lastToken]

/-- The tokens of pieces end with the last token of the last piece. -/
theorem getLast?_joinFrom {ps : List Piece} (hp : ∀ p ∈ ps, p.tokens ≠ []) (last : Option Token) :
    (joinFrom last ps).getLast?.or last = lastToken last ps := by
  induction ps generalizing last with
  | nil => rfl
  | cons p ps ih =>
    have hne := hp p (by simp)
    have h := ih (fun q hq => hp q (by simp [hq])) (p.tokens.getLast?.or last)
    simp only [joinFrom, lastToken, List.foldl_cons] at h ⊢
    rw [← h, List.getLast?_append, List.getLast?_append]
    obtain ⟨x, hx⟩ := Option.isSome_iff_exists.mp (List.getLast?_isSome.mpr hne)
    rw [hx]
    simp

theorem flush_tokens_ne_nil {buf pending : Text} {pos : Option Position} {p : Piece}
    (h : p ∈ flush buf pending pos) : p.tokens ≠ [] := by
  unfold flush at h
  split at h
  · cases h
  · cases List.mem_singleton.mp h
    simp [writeText, call]

theorem nodePieces_tokens_ne_nil {buf : Text} {n : Node} {p : Piece} (h : p ∈ nodePieces buf n) :
    p.tokens ≠ [] := by
  cases n with
  | text pos t => exact flush_tokens_ne_nil (by simpa [nodePieces] using h)
  | attrValue pos v e =>
    simp only [nodePieces] at h
    split at h <;> simp only [List.mem_cons, List.not_mem_nil, or_false] at h
    · rcases h with rfl | rfl | rfl <;> simp [writeText, writeValue, call]
    · cases h
      simp [writeText, call]
  | external => simp [nodePieces] at h
  | _ =>
    simp only [nodePieces, List.mem_singleton] at h
    cases h
    simp [writeText, writeValue, call, closureCode, defineCall]

theorem piecesFrom_text (buf pending : Text) (pos p : Option Position) (t : Text) (ns : List Node) :
    piecesFrom buf pending pos (.text p t :: ns) =
      piecesFrom buf (pending ++ t) (if pending.isEmpty then p else pos) ns := by
  rw [piecesFrom]

theorem piecesFrom_cons (buf pending : Text) (pos : Option Position) {n : Node} (ns : List Node)
    (hn : n.isText = false) : piecesFrom buf pending pos (n :: ns) =
      flush buf pending pos ++ nodePieces buf n ++ piecesFrom buf [] none ns := by
  rw [piecesFrom]
  rintro p t rfl
  cases hn

theorem piecesFrom_tokens_ne_nil {buf pending : Text} {pos : Option Position} {ns : List Node}
    {p : Piece} (h : p ∈ piecesFrom buf pending pos ns) : p.tokens ≠ [] := by
  induction ns generalizing pending pos with
  | nil => exact flush_tokens_ne_nil (by simpa [piecesFrom] using h)
  | cons n ns ih =>
    cases hn : n.isText with
    | true =>
      cases n with
      | text => exact ih (by rwa [piecesFrom_text] at h)
      | _ => cases hn
    | false =>
      rw [piecesFrom_cons _ _ _ _ hn, List.mem_append, List.mem_append] at h
      rcases h with (h | h) | h
      · exact flush_tokens_ne_nil h
      · exact nodePieces_tokens_ne_nil h
      · exact ih h

/-- Nodes before a node that is no text are lowered on their own. -/
theorem piecesFrom_append (buf pending : Text) (pos : Option Position) (pre : List Node) {n : Node}
    (post : List Node) (hn : n.isText = false) : piecesFrom buf pending pos (pre ++ n :: post) =
      piecesFrom buf pending pos pre ++ (nodePieces buf n ++ piecesFrom buf [] none post) := by
  induction pre generalizing pending pos with
  | nil => simp [piecesFrom_cons _ _ _ _ hn, piecesFrom]
  | cons m pre ih =>
    cases hm : m.isText with
    | true =>
      cases m with
      | text => rw [List.cons_append, piecesFrom_text, piecesFrom_text, ih]
      | _ => cases hm
    | false => simp [piecesFrom_cons _ _ _ _ hm, ih]

/-! ## What the code before ends with -/

/-- The code of a node that writes something ends with a semicolon, or not, whatever comes before. -/
theorem lastToken_nodePieces (buf : Text) {n : Node} (hn : n.isText = false)
    (hs : n.isSilent = false) (last : Option Token) :
    (lastToken last (nodePieces buf n)).all (·.isPunct ';') = n.endsWithSemicolon := by
  cases n with
  | text => cases hn
  | external => cases hs
  | attrValue pos v e => simp only [nodePieces]; split <;> rfl
  | _ => rfl

theorem lastToken_flush (buf pending : Text) (pos : Option Position) (last : Option Token) :
    (lastToken last (flush buf pending pos)).all (·.isPunct ';') =
      (!pending.isEmpty || last.all (·.isPunct ';')) := by
  unfold flush
  cases pending <;> rfl

/-- The last node that writes anything decides what the code ends with. -/
theorem lastToken_piecesFrom (buf pending : Text) (pos : Option Position) (ns : List Node)
    (last : Option Token) :
    (lastToken last (piecesFrom buf pending pos ns)).all (·.isPunct ';') =
      match ns.reverse.find? (!·.isSilent) with
      | some n => n.endsWithSemicolon
      | none => !pending.isEmpty || last.all (·.isPunct ';') := by
  induction ns generalizing pending pos last with
  | nil => simpa [piecesFrom] using lastToken_flush buf pending pos last
  | cons n ns ih =>
    cases hn : n.isText with
    | true =>
      cases n with
      | text p t =>
        rw [piecesFrom_text, ih, List.reverse_cons, List.find?_append]
        cases ns.reverse.find? (!·.isSilent) with
        | some m => rfl
        | none => cases t <;> cases pending <;> rfl
      | _ => cases hn
    | false =>
      rw [piecesFrom_cons _ _ _ _ hn, lastToken_append, lastToken_append, ih, List.reverse_cons,
        List.find?_append]
      cases ns.reverse.find? (!·.isSilent) with
      | some m => rfl
      | none =>
        cases hs : n.isSilent with
        | false => simp [hs, lastToken_nodePieces buf hn hs]
        | true =>
          cases n with
          | external => simpa [isSilent, nodePieces, lastToken] using lastToken_flush buf pending pos last
          | text => cases hn
          | _ => cases hs

theorem getLast?_lower (buf : Text) (ns : List Node) :
    ((lower buf ns).getLast?.all (·.isPunct ';')) = Parted ns := by
  have h := getLast?_joinFrom (fun p hp => piecesFrom_tokens_ne_nil hp : ∀ p ∈
    piecesFrom buf [] none ns, p.tokens ≠ []) none
  rw [Option.or_none] at h
  unfold lower join Parted
  rw [h, lastToken_piecesFrom]
  cases ns.reverse.find? (!·.isSilent) <;> rfl

/-! ## Copied code -/

/-- Code is copied right after the code of the nodes before it. -/
theorem lower_code (buf : Text) (pre post : List Node) {h : Node} (hc : h.isCode = true) :
    ∃ t more, lower buf (pre ++ h :: post) = lower buf pre ++ t :: more ∧
      t.pos = h.pos ∧ t.space = h.codeSpace := by
  unfold lower join
  rw [piecesFrom_append _ _ _ _ _ (isText_of_isCode hc), joinFrom_append]
  cases h with
  | ident | literal | punct | group | closure => exact ⟨_, _, rfl, rfl, rfl⟩
  | _ => cases hc

/-- Copied code starts a statement exactly if the code before it ends with a semicolon, or if it stands
on a new line. -/
theorem startsStatement_iff (buf : Text) (pre post : List Node) {h : Node} (hc : h.isCode = true) :
    ∃ t more, lower buf (pre ++ h :: post) = lower buf pre ++ t :: more ∧ t.pos = h.pos ∧
      (Token.StartsStatement (lower buf pre) t ↔
        Parted pre = true ∨ Text.breaksLine h.codeSpace = true) := by
  obtain ⟨t, more, hl, hp, hs⟩ := lower_code buf pre post hc
  refine ⟨t, more, hl, hp, ?_⟩
  unfold Token.StartsStatement
  rw [getLast?_lower, hs]

/-! ## Contents read before -/

theorem resolve_append {settings : Settings} {xs ys zs : List Node} {w w' : World}
    (h : resolve settings (xs ++ ys) w = .ok zs w') :
    ∃ xs' ys' w₁, resolve settings xs w = .ok xs' w₁ ∧ resolve settings ys w₁ = .ok ys' w' ∧
      zs = xs' ++ ys' := by
  induction xs generalizing zs w w' with
  | nil => exact ⟨[], zs, w, rfl, h, rfl⟩
  | cons x xs ih =>
    rw [List.cons_append, resolve] at h
    obtain ⟨x', w₁, hx, h₁⟩ := WorldM.bind_eq_ok h
    obtain ⟨zs', w₂, hxs, h₂⟩ := WorldM.bind_eq_ok h₁
    obtain ⟨xs', ys', w₃, hxs', hys, rfl⟩ := ih hxs
    cases h₂
    refine ⟨x' :: xs', ys', w₃, ?_, hys, rfl⟩
    rw [resolve]
    simp only [Bind.bind, EStateM.bind, hx, hxs']
    rfl

/-- Code stays code, at its place. -/
theorem resolveNode_code {settings : Settings} {n n' : Node} {w w' : World} (hc : n.isCode = true)
    (h : resolveNode settings n w = .ok n' w') :
    n'.isCode = true ∧ n'.pos = n.pos ∧ n'.codeSpace = n.codeSpace := by
  cases n with
  | ident | literal | punct =>
    cases h
    exact ⟨rfl, rfl, rfl⟩
  | group | closure =>
    rw [resolveNode] at h
    obtain ⟨ns, w₁, -, hret⟩ := WorldM.bind_eq_ok h
    cases hret
    exact ⟨rfl, rfl, rfl⟩
  | _ => cases hc

/-- Wherever the nodes `before ++ h :: after` end up in a template, whose contents left for later are
read first, the first token of `h` starts a statement exactly if the code of all that comes before it
ends with a semicolon, or if it stands on a new line. -/
def StartsIffParted (before : List Node) (h : Node) (after : List Node) : Prop :=
  ∀ settings outer post w ts w',
    ofNodes settings (outer ++ (before ++ h :: after) ++ post) w = .ok ts w' →
    ∃ pre w₁ t more, resolve settings (outer ++ before) w = .ok pre w₁ ∧
      ts = lower settings.buffer pre ++ t :: more ∧ t.pos = h.pos ∧
      (Token.StartsStatement (lower settings.buffer pre) t ↔
        Parted pre = true ∨ Text.breaksLine h.codeSpace = true)

theorem startsIffParted {h : Node} (hc : h.isCode = true) (before after : List Node) :
    StartsIffParted before h after := by
  intro settings outer post w ts w' ho
  obtain ⟨ns, w₁, hr, hret⟩ := WorldM.bind_eq_ok ho
  have hns : outer ++ (before ++ h :: after) ++ post = outer ++ before ++ h :: (after ++ post) := by
    simp
  rw [hns] at hr
  obtain ⟨pre', ns', w₂, hpre, hrest, rfl⟩ := resolve_append hr
  rw [resolve] at hrest
  obtain ⟨h', w₃, hh, hrest₁⟩ := WorldM.bind_eq_ok hrest
  obtain ⟨post', w₄, -, hrest₂⟩ := WorldM.bind_eq_ok hrest₁
  cases hrest₂
  obtain ⟨hc', hp, hs⟩ := resolveNode_code hc hh
  obtain ⟨t, more, hl, hpos, hiff⟩ := startsStatement_iff settings.buffer pre' post' hc'
  cases hret
  exact ⟨pre', w₂, t, more, hpre, hl, hpos.trans hp, hs ▸ hiff⟩

end Code
end Atmark
