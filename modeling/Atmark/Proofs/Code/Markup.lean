import Atmark.Code.Coalesce
import Atmark.Proofs.Code.Separation
import Atmark.Proofs.Text.Quoting

/-! Markup becomes one call. The nodes of tags and texts are lowered to calls that write what stands in
the source (`lower_markup`); these are neighbours and hold their texts as literals that can be read back,
so they are joined into a single call with the whole text (`coalesce_markup`). -/
namespace Atmark

namespace Node

/-- A part of a tag without value, or a text. -/
def isMarkup : Node → Bool
  | .tagStart .. | .tagVoid .. | .tagEnd .. => true
  | .closeStart .. | .closeSelf .. | .closeVoid .. => true
  | .attrName .. | .attrEquals .. | .text .. => true
  | _ => false

/-- What is written for a part of a tag or a text. -/
def markup : Node → Text
  | .tagStart name _ | .tagVoid name _ => utf8 "<" ++ name
  | .tagEnd _ name _ => utf8 "</" ++ name ++ utf8 ">"
  | .closeStart _ space => space ++ utf8 ">"
  | .closeSelf _ space => space ++ utf8 "/>"
  | .closeVoid _ space slash => space ++ utf8 (if slash.isSome then "/>" else ">")
  | .attrName _ space name quoted => Code.nameText space name quoted
  | .attrEquals _ => utf8 "="
  | .text _ t => t
  | _ => []

end Node

namespace Code
open Node

/-- The tokens are one call that writes a text to `buf`. -/
def IsTextCall (buf text : Text) (ts : List Token) : Prop :=
  ∃ (r : Ident) (d : Punct) (m : Ident) (f : Frame) (l : Literal) (e : Punct),
    ts = [.ident r, .punct d, .ident m, .group f [.literal l], .punct e] ∧
    r.name = buf ∧ d.char = '.' ∧ m.name = utf8 "WriteLiteral" ∧ f.delim = .parenthesis ∧
    l.isString = true ∧ e.char = ';' ∧ Text.unquote? l.raw = some text

/-! ## Lowering -/

/-- The calls that write texts, each with its position. -/
def writes (buf : Text) (cs : List (Text × Option Position)) : List Piece :=
  cs.map fun c => writeText buf c.1 c.2

theorem nodePieces_markup (buf : Text) {n : Node} (hn : n.isMarkup = true) (ht : n.isText = false) :
    nodePieces buf n = [writeText buf n.markup n.pos] := by
  cases n with
  | text => cases ht
  | tagStart | tagVoid | tagEnd | closeStart | closeSelf | closeVoid | attrEquals | attrName => rfl
  | _ => cases hn

theorem markup_ne_nil {n : Node} (hn : n.isMarkup = true) (ht : n.isText = false) :
    n.markup ≠ [] := by
  cases n with
  | text => cases ht
  | attrName pos space name quoted =>
    cases space <;> simp [markup, nameText, utf8]
  | closeVoid pos space slash => cases slash <;> simp [markup, utf8]
  | tagStart | tagVoid | tagEnd | closeStart | closeSelf | attrEquals => simp [markup, utf8]
  | _ => cases hn

theorem staticText_ne_nil (v : StaticValue) : staticText v ≠ [] := by
  have hquote (t : Text) : quoteValue t ≠ [] := by
    unfold quoteValue
    split <;> simp
  unfold staticText
  split
  · split
    · exact hquote _
    · simp
  · exact hquote _

/-- The node writes the text `t` and does nothing else. -/
inductive WritesOnly (buf : Text) : Node → Text → Prop
  | text {pos : Option Position} {t : Text} : WritesOnly buf (.text pos t) t
  | call {n : Node} {t : Text} : n.isText = false → nodePieces buf n = [writeText buf t n.pos] → t ≠ [] →
      WritesOnly buf n t

theorem writesOnly_markup (buf : Text) {n : Node} (hn : n.isMarkup = true) : WritesOnly buf n n.markup := by
  cases ht : n.isText with
  | true =>
    cases n with
    | text => exact .text
    | _ => cases ht
  | false => exact .call ht (nodePieces_markup buf hn ht) (markup_ne_nil hn ht)

/-- Nodes that only write are lowered to calls that write their texts, none of them for nothing. -/
theorem piecesFrom_writes (buf : Text) {written : Node → Text} {ns : List Node}
    (hn : ∀ n ∈ ns, WritesOnly buf n (written n)) (pending : Text) (pos : Option Position) :
    ∃ cs, piecesFrom buf pending pos ns = writes buf cs ∧
      cs.flatMap (·.1) = pending ++ ns.flatMap written ∧ ∀ c ∈ cs, c.1 ≠ [] := by
  have hflush (pending : Text) (pos : Option Position) : ∃ cs, flush buf pending pos = writes buf cs ∧
      cs.flatMap (·.1) = pending ∧ ∀ c ∈ cs, c.1 ≠ [] := by
    cases pending with
    | nil => exact ⟨[], rfl, rfl, by simp⟩
    | cons b r => exact ⟨[(b :: r, pos)], rfl, by simp, by simp⟩
  induction ns generalizing pending pos with
  | nil =>
    obtain ⟨cs, h, ht, hne⟩ := hflush pending pos
    exact ⟨cs, by rw [piecesFrom, h], by simpa using ht, hne⟩
  | cons n ns ih =>
    have ih := ih fun m h => hn m (by simp [h])
    have hw := hn n (by simp)
    rw [List.flatMap_cons]
    generalize written n = u at hw
    cases hw with
    | @text p =>
      obtain ⟨cs, h, hs, hne⟩ := ih (pending ++ u) (if pending.isEmpty then p else pos)
      exact ⟨cs, by rw [piecesFrom_text, h], by simp [hs], hne⟩
    | call ht hcall hu =>
      obtain ⟨as, ha, has, hane⟩ := hflush pending pos
      obtain ⟨cs, h, hs, hne⟩ := ih [] none
      refine ⟨as ++ (u, n.pos) :: cs, ?_, ?_, ?_⟩
      · rw [piecesFrom_cons _ _ _ _ ht, ha, h, hcall]
        simp [writes]
      · simp [has, hs]
      · intro c hc
        rcases List.mem_append.mp hc with hc | hc
        · exact hane c hc
        rcases List.mem_cons.mp hc with rfl | hc
        · exact hu
        · exact hne c hc

theorem joinFrom_writes (buf : Text) (cs : List (Text × Option Position)) {last : Option Token}
    (hl : last.all (·.isPunct ';') = true) :
    joinFrom last (writes buf cs) = (writes buf cs).flatMap (·.tokens) := by
  induction cs generalizing last with
  | nil => rfl
  | cons c cs ih =>
    have hsep : last.any (!·.isPunct ';') = false := by
      cases last with
      | none => rfl
      | some t => simpa using hl
    have h : joinFrom ((writeText buf c.1 c.2).tokens.getLast?.or last) (writes buf cs) = _ := ih rfl
    simp only [writes, List.map_cons, joinFrom, List.flatMap_cons] at h ⊢
    rw [h, hsep]
    simp

/-! ## Joining -/

/-- The call that writes a text, as it is read. -/
def textCall (buf : Text) (c : Text × Option Position) : TextCall :=
  let pos := c.2.or (some .origin)
  ⟨⟨pos, [], buf⟩, ⟨pos, [], '.'⟩, ⟨pos, [], utf8 "WriteLiteral"⟩, ⟨pos, [], .parenthesis, []⟩,
    .ofText c.2 c.1, ⟨pos, [], ';'⟩, c.1, false⟩

theorem coalesceEach_writes (buf : Text) (cs : List (Text × Option Position)) :
    coalesceEach buf ((writes buf cs).flatMap (·.tokens)) = (writes buf cs).flatMap (·.tokens) := by
  induction cs with
  | nil => rfl
  | cons c cs ih =>
    simp only [writes, List.map_cons, List.flatMap_cons] at ih ⊢
    simp only [writeText, call, List.cons_append, List.nil_append, coalesceEach] at ih ⊢
    rw [ih]
    rfl

theorem textCall?_writeText (buf : Text) (c : Text × Option Position) (ts : List Token) :
    textCall? buf ((writeText buf c.1 c.2).tokens ++ ts) = some (textCall buf c) := by
  have hu : Text.unquote? (Literal.ofText c.2 c.1).raw = some c.1 := Text.unquote?_quote c.1
  simp only [writeText, call, Token.word, Token.mark, Token.enclose, List.cons_append, textCall?]
  rw [hu]
  simp [textCall, Literal.isString, Literal.ofText]

theorem items_writes (buf : Text) (cs : List (Text × Option Position)) :
    items buf ((writes buf cs).flatMap (·.tokens)) = cs.map fun c => .call (textCall buf c) := by
  induction cs with
  | nil => rfl
  | cons c cs ih =>
    have h := textCall?_writeText buf c ((writes buf cs).flatMap (·.tokens))
    simp only [writes, List.map_cons, List.flatMap_cons] at h ih ⊢
    simp only [writeText, call, List.cons_append, List.nil_append, items, itemsFrom] at h ih ⊢
    rw [h, ih]

/-- The call writes its text to `buf`, once it is tokens. -/
structure TextCall.Writes (buf : Text) (c : TextCall) : Prop where
  receiver : c.receiver.name = buf
  dot : c.dot.char = '.'
  method : c.method.name = utf8 "WriteLiteral"
  frame : c.frame.delim = .parenthesis
  isString : c.literal.isString = true
  stop : c.stop.char = ';'
  literal : c.isJoined = false → Text.unquote? c.literal.raw = some c.text

theorem textCall_writes (buf : Text) (c : Text × Option Position) : (textCall buf c).Writes buf :=
  ⟨rfl, rfl, rfl, rfl, rfl, rfl, fun _ => Text.unquote?_quote c.1⟩

theorem TextCall.Writes.join {buf : Text} {c d : TextCall} (hc : c.Writes buf) (hd : d.Writes buf) :
    (c.join d).Writes buf :=
  ⟨hc.receiver, hc.dot, hc.method, hc.frame, hc.isString, hd.stop, by simp [TextCall.join]⟩

theorem TextCall.Writes.isTextCall {buf : Text} {c : TextCall} (hc : c.Writes buf) :
    IsTextCall buf c.text c.tokens := by
  unfold TextCall.tokens
  cases hj : c.isJoined with
  | true =>
    exact ⟨_, _, _, _, _, _, rfl, hc.receiver, hc.dot, hc.method, rfl, rfl, hc.stop,
      Text.unquote?_quote c.text⟩
  | false =>
    exact ⟨_, _, _, _, _, _, rfl, hc.receiver, hc.dot, hc.method, hc.frame, hc.isString, hc.stop,
      hc.literal hj⟩

/-- The tokens of a call that writes a text, with the places they come from. -/
def writeCall (buf : Text) (pos literalPos stopPos : Option Position) (t : Text) : List Token :=
  [.word pos buf, .mark pos '.', .word pos (utf8 "WriteLiteral"),
    .enclose pos .parenthesis [.literal (.ofText literalPos t)], .mark stopPos ';']

theorem isTextCall_writeCall (buf : Text) (pos literalPos stopPos : Option Position) (t : Text) :
    IsTextCall buf t (writeCall buf pos literalPos stopPos t) :=
  ⟨_, _, _, _, _, _, rfl, rfl, rfl, rfl, rfl, rfl, rfl, Text.unquote?_quote t⟩

/-- Calls that are all neighbours become one, with all their texts. -/
theorem joinCalls_calls (buf : Text) (c : Text × Option Position)
    (cs : List (Text × Option Position)) :
    ∃ d pos literalPos stopPos, joinCalls ((c :: cs).map fun c => .call (textCall buf c)) = [.call d] ∧
      d.tokens = writeCall buf pos literalPos stopPos ((c :: cs).flatMap (·.1)) ∧
      d.text = (c :: cs).flatMap (·.1) ∧ d.stop = ⟨stopPos, [], ';'⟩ := by
  induction cs generalizing c with
  | nil =>
    have htext : [c].flatMap (·.1) = c.1 := by simp
    exact ⟨textCall buf c, c.2.or (some .origin), c.2, _, rfl, by rw [htext]; rfl, htext.symm, rfl⟩
  | cons c' cs ih =>
    obtain ⟨d, -, -, stopPos, hd, -, ht, hstop⟩ := ih c'
    refine ⟨(textCall buf c).join d, c.2.or (some .origin), c.2.or (some .origin), stopPos, ?_, ?_, ?_, hstop⟩
    · rw [List.map_cons, joinCalls, hd]
    · rw [List.flatMap_cons, ← ht]
      simp [TextCall.tokens, TextCall.join, textCall, hstop, writeCall, Token.word, Token.mark]
    · rw [List.flatMap_cons, ← ht]
      rfl

/-- Nodes that only write become one call that writes all their texts, or nothing if there are none. -/
theorem coalesce_writes (buf : Text) {written : Node → Text} {ns : List Node}
    (hn : ∀ n ∈ ns, WritesOnly buf n (written n)) :
    (ns.flatMap written = [] ∧ coalesce buf (lower buf ns) = []) ∨
    (ns.flatMap written ≠ [] ∧ ∃ pos literalPos stopPos,
      coalesce buf (lower buf ns) = writeCall buf pos literalPos stopPos (ns.flatMap written)) := by
  obtain ⟨cs, hp, hs, hne⟩ := piecesFrom_writes buf hn [] none
  have hl : coalesce buf (lower buf ns) =
      (joinCalls (cs.map fun c => .call (textCall buf c))).flatMap Item.tokens := by
    rw [lower, join, hp, joinFrom_writes buf cs rfl, coalesce, joinBlock, coalesceEach_writes,
      items_writes]
  rw [hl, ← List.nil_append (ns.flatMap written), ← hs]
  cases cs with
  | nil => exact .inl ⟨rfl, rfl⟩
  | cons c cs =>
    obtain ⟨d, pos, literalPos, stopPos, hd, htokens, -, -⟩ := joinCalls_calls buf c cs
    refine .inr ⟨?_, pos, literalPos, stopPos, ?_⟩
    · have := hne c (by simp)
      simp [this]
    · rw [hd, ← htokens]
      simp [Item.tokens]

/-- Markup becomes one call that writes all of it, or nothing if there is none. -/
theorem coalesce_markup (buf : Text) {ns : List Node} (hn : ∀ n ∈ ns, n.isMarkup = true) :
    (ns.flatMap markup = [] ∧ coalesce buf (lower buf ns) = []) ∨
    (ns.flatMap markup ≠ [] ∧ IsTextCall buf (ns.flatMap markup) (coalesce buf (lower buf ns))) := by
  rcases coalesce_writes buf fun n h => writesOnly_markup buf (hn n h) with hempty | ⟨hne, p, q, e, hcall⟩
  · exact .inl hempty
  · exact .inr ⟨hne, hcall ▸ isTextCall_writeCall buf p q e _⟩

/-! ## Nothing left for later -/

/-- Nodes are kept if nothing in them is left for later. -/
theorem resolve_eq_self {settings : Settings} {ns : List Node} {w : World}
    (hn : ∀ n ∈ ns, resolveNode settings n w = .ok n w) : resolve settings ns w = .ok ns w := by
  induction ns with
  | nil => rfl
  | cons n ns ih =>
    rw [resolve]
    simp only [bind, EStateM.bind, hn n (by simp), ih fun m h => hn m (by simp [h])]
    rfl

theorem resolveNode_markup (settings : Settings) {n : Node} (hn : n.isMarkup = true) (w : World) :
    resolveNode settings n w = .ok n w := by
  cases n with
  | tagStart | tagVoid | tagEnd | closeStart | closeSelf | closeVoid => rfl
  | attrEquals | attrName | text => rfl
  | _ => cases hn

/-- Markup holds no content that is left for later. -/
theorem resolve_markup (settings : Settings) {ns : List Node} (hn : ∀ n ∈ ns, n.isMarkup = true)
    (w : World) : resolve settings ns w = .ok ns w :=
  resolve_eq_self fun n h => resolveNode_markup settings (hn n h) w

end Code
end Atmark
