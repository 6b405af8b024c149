import Atmark.Proofs.Node.Bare
import Atmark.Proofs.Token.Unplaced

/-! Nodes without their positions. Where a node was read decides nothing while a region is filled, and nothing that
is read off a node depends on it. -/
namespace Atmark

/-- The static value without the positions in it. -/
def StaticValue.placeless (v : StaticValue) : StaticValue :=
  { v with literal := v.literal.map fun l => { l with pos := none }, run := Token.unplacedAll v.run }

@[simp] theorem StaticValue.placeless_placeless (v : StaticValue) : v.placeless.placeless = v.placeless := by
  cases h : v.literal <;> simp [placeless, h]

namespace Node

mutual

/-- The node without the positions in it. -/
def placeless : Node → Node
  | .ident t => .ident { t with pos := none }
  | .literal t => .literal { t with pos := none }
  | .punct t => .punct { t with pos := none }
  | .group f ns => .group { f with pos := none } (placelessAll ns)
  | .tagStart name ts => .tagStart name (Token.unplacedAll ts)
  | .tagVoid name ts => .tagVoid name (Token.unplacedAll ts)
  | .tagEnd _ name ts => .tagEnd none name (Token.unplacedAll ts)
  | .closeStart _ space => .closeStart none space
  | .closeSelf _ space => .closeSelf none space
  | .closeVoid _ space slash => .closeVoid none space (slash.map fun p => { p with pos := none })
  | .attrName _ space name quoted => .attrName none space name (quoted.map fun l => { l with pos := none })
  | .attrEquals _ => .attrEquals none
  | .attrValue _ v e => .attrValue none v.placeless (placelessAll e)
  | .text _ t => .text none t
  | .write _ e => .write none (placelessAll e)
  | .external _ path includer markdown => .external none path includer markdown
  | .closure t f ns => .closure { t with pos := none } { f with pos := none } (placelessAll ns)
  | .define _ name ns => .define none name (placelessAll ns)

/-- Nodes without the positions in them. -/
def placelessAll : List Node → List Node
  | [] => []
  | n :: ns => n.placeless :: placelessAll ns

end

variable {n m : Node} {ns ms : List Node}

mutual

@[simp] theorem placeless_placeless : (n : Node) → n.placeless.placeless = n.placeless
  | .attrValue _ v e => by
    simp only [placeless, StaticValue.placeless_placeless, placelessAll_placelessAll e]
  | .group _ ns | .write _ ns | .closure _ _ ns | .define _ _ ns => by
    simp only [placeless, placelessAll_placelessAll ns]
  | .closeVoid _ _ slash => by cases slash <;> simp only [placeless] <;> rfl
  | .attrName _ _ _ quoted => by cases quoted <;> simp only [placeless] <;> rfl
  | .ident _ | .literal _ | .punct _ | .tagStart .. | .tagVoid .. | .tagEnd .. | .closeStart ..
  | .closeSelf .. | .attrEquals .. | .text .. | .external .. => by simp [placeless]

@[simp] theorem placelessAll_placelessAll : (ns : List Node) → placelessAll (placelessAll ns) = placelessAll ns
  | [] => rfl
  | n :: ns => by simp only [placelessAll, placeless_placeless n, placelessAll_placelessAll ns]

end

theorem placelessAll_eq_map (ns : List Node) : placelessAll ns = ns.map placeless := by
  induction ns with
  | nil => rfl
  | cons n ns ih => rw [placelessAll, ih, List.map_cons]

@[simp] theorem placelessAll_append (ns ms : List Node) :
    placelessAll (ns ++ ms) = placelessAll ns ++ placelessAll ms := by
  simp [placelessAll_eq_map]

@[simp] theorem placelessAll_reverse (ns : List Node) : placelessAll ns.reverse = (placelessAll ns).reverse := by
  simp [placelessAll_eq_map]

@[simp] theorem isEmpty_placelessAll (ns : List Node) : (placelessAll ns).isEmpty = ns.isEmpty := by
  cases ns <;> rfl

theorem isEmpty_congr (h : placelessAll ms = placelessAll ns) : ms.isEmpty = ns.isEmpty := by
  rw [← isEmpty_placelessAll, h, isEmpty_placelessAll]

@[simp] theorem endsStatement_placeless (n : Node) : n.placeless.endsStatement = n.endsStatement := by
  cases n <;> simp only [placeless, endsStatement]

@[simp] theorem endsWithWord_placeless (n : Node) : n.placeless.endsWithWord = n.endsWithWord := by
  cases n <;> simp only [placeless, endsWithWord]

theorem placeless_showsTexts : ShowsTexts placeless where
  same _ _ _ := by rw [placeless, placeless]
  text n pos t h := by
    cases n with
    | text pos' t' =>
      obtain rfl : t' = t := by simpa [placeless] using h
      exact ⟨pos', rfl⟩
    | _ => simp [placeless] at h

mutual

/-- What is bare the same differs in positions only. -/
theorem placeless_bare : (n : Node) → n.bare.placeless = n.placeless
  | .text _ _ => by simp only [bare, placeless]
  | .group _ ns => by simp only [bare, placeless, placelessAll_bareAll ns]
  | .attrValue _ _ e => by simp only [bare, placeless, placelessAll_bareAll e]
  | .write _ e => by simp only [bare, placeless, placelessAll_bareAll e]
  | .closure _ _ ns => by simp only [bare, placeless, placelessAll_bareAll ns]
  | .define _ _ ns => by simp only [bare, placeless, placelessAll_bareAll ns]
  | .ident _ | .literal _ | .punct _ | .tagStart .. | .tagVoid .. | .tagEnd .. | .closeStart ..
  | .closeSelf .. | .closeVoid .. | .attrName .. | .attrEquals .. | .external .. => by simp only [bare]

theorem placelessAll_bareAll : (ns : List Node) → placelessAll (bareAll ns) = placelessAll ns
  | [] => rfl
  | n :: ns => by rw [bareAll, placelessAll, placelessAll, placeless_bare n, placelessAll_bareAll ns]

end

/-! ## Tokens as nodes -/

theorem isPathSeparator_placeless (t : Token) (ts : List Token) :
    isPathSeparator t.unplaced (Token.unplacedAll ts) = isPathSeparator t ts := by
  have hident (t : Token) : t.unplaced.isIdent = t.isIdent := by cases t <;> rfl
  match ts with
  | [] | [_] => simp [isPathSeparator, Token.unplacedAll]
  | u :: v :: ts => simp [isPathSeparator, Token.unplacedAll, hident]

mutual

theorem placeless_ofToken : (t : Token) → (ofToken t).placeless = ofToken t.unplaced
  | .ident _ | .literal _ | .punct _ => by simp only [ofToken, placeless, Token.unplaced]
  | .group f ts => by simp only [ofToken, placeless, Token.unplaced, placelessAll_ofTokensFrom ts false]

theorem placelessAll_ofTokensFrom : (ts : List Token) → (skip : Bool) →
    placelessAll (ofTokensFrom skip ts) = ofTokensFrom skip (Token.unplacedAll ts)
  | [], _ => rfl
  | t :: ts, skip => by
    have hpos : t.unplaced.pos = none := by cases t <;> rfl
    rw [Token.unplacedAll, ofTokensFrom, ofTokensFrom, isPathSeparator_placeless, Token.space_unplaced, hpos]
    split
    · exact placelessAll_ofTokensFrom ts false
    · split
      · rw [placelessAll, placelessAll_ofTokensFrom ts true, placeless]
      · rw [placelessAll, placelessAll_ofTokensFrom ts false, placeless_ofToken t]

end

/-- Tokens that differ in positions are the same nodes but for positions. -/
theorem placelessAll_ofTokens {ts us : List Token} (h : Token.unplacedAll us = Token.unplacedAll ts) :
    placelessAll (ofTokens us) = placelessAll (ofTokens ts) := by
  rw [ofTokens, ofTokens, placelessAll_ofTokensFrom, placelessAll_ofTokensFrom, h]

end Node

open Node

/-! ## Attributes -/

/-- The value without the positions in it. -/
def AttrValue.placeless (v : AttrValue) : AttrValue := ⟨none, v.fixed.placeless, placelessAll v.expr⟩

/-- The attribute without the positions in it. -/
def Attribute.placeless (a : Attribute) : Attribute := { a with value := a.value.map AttrValue.placeless }

/-- The name without the positions in it. -/
def AttrKey.placeless (k : AttrKey) : AttrKey :=
  { k with quoted := k.quoted.map fun l => { l with pos := none }, pos := none }

/-- The attributes read so far without the positions in them. -/
def TagReading.placeless (r : TagReading) : TagReading :=
  ⟨placelessAll r.nodes, r.attributes.map Attribute.placeless, r.key.map AttrKey.placeless⟩

@[simp] theorem StaticValue.content_placeless (v : StaticValue) : v.placeless.content = v.content := by
  have hsource : Token.sourceOf (Token.unplacedAll v.run) = Token.sourceOf v.run := by
    cases v.run with
    | nil => rfl
    | cons t ts => simp [Token.unplacedAll, Token.sourceOf]
  have hempty : (Token.unplacedAll v.run).isEmpty = v.run.isEmpty := by cases v.run <;> rfl
  cases hl : v.literal <;> simp [content, placeless, hl, hsource, hempty, Literal.content]

@[simp] theorem AttrValue.static?_placeless (v : AttrValue) : v.placeless.static? = v.static? := by
  have hempty : (Token.unplacedAll v.fixed.run).isEmpty = v.fixed.run.isEmpty := by cases v.fixed.run <;> rfl
  simp only [static?, AttrValue.placeless, StaticValue.content_placeless, isEmpty_placelessAll]
  simp only [StaticValue.placeless, hempty]

namespace TagReading

theorem withoutValue_placeless (r : TagReading) : r.withoutValue.placeless = r.placeless.withoutValue := by
  unfold withoutValue
  cases h : r.key <;>
    simp [TagReading.placeless, h, placelessAll, Node.placeless, keyNode, Attribute.placeless, AttrKey.placeless]

theorem withValue_placeless (r : TagReading) (k : AttrKey) (equals : Option Position) (v : AttrValue) :
    (r.withValue k equals v).placeless = r.placeless.withValue k.placeless none v.placeless := by
  simp [withValue, TagReading.placeless, placelessAll, Node.placeless, keyNode, Attribute.placeless, AttrKey.placeless,
    AttrValue.placeless, AttrValue.node]

theorem startKey_placeless (r : TagReading) (t : Token) : (r.startKey t).placeless = r.placeless.startKey t.unplaced := by
  have hbrief := Token.brief_unplaced t
  unfold startKey
  rw [← withoutValue_placeless]
  cases t with
  | literal l => simp [TagReading.placeless, Token.unplaced, AttrKey.placeless, Literal.content]
  | _ =>
    simp only [Token.unplaced] at hbrief ⊢
    simp [TagReading.placeless, AttrKey.placeless, hbrief, Token.space, Token.pos]

theorem addKey_placeless (r : TagReading) (t : Token) : (r.addKey t).placeless = r.placeless.addKey t.unplaced := by
  have hglued : t.unplaced.glued = t.glued := Token.glued_unplaced t
  unfold addKey
  cases hk : r.key with
  | none =>
    have hkey : r.placeless.key = none := by simp [TagReading.placeless, hk]
    rw [hkey]
    exact startKey_placeless r t
  | some k =>
    have hquoted : (k.quoted.map fun l : Literal => { l with pos := none }).isNone = k.quoted.isNone := by
      cases k.quoted <;> rfl
    have hkey : r.placeless.key = some k.placeless := by simp [TagReading.placeless, hk]
    rw [hkey]
    simp only [hglued, Token.brief_unplaced, AttrKey.placeless, hquoted]
    split
    · simp [TagReading.placeless, AttrKey.placeless]
    · exact startKey_placeless r t

end TagReading

/-! ## States -/

namespace State
variable {s s' : State}

/-- Nodes go to regions that are the same but for positions in the same way. -/
theorem foldl_push_placeless (hs : placelessAll s'.sink = placelessAll s.sink) (ht : s'.trimLine = s.trimLine)
    {ns ns' : List Node} (hns : placelessAll ns' = placelessAll ns) :
    placelessAll (ns'.foldl push s').sink = placelessAll (ns.foldl push s).sink ∧
      (ns'.foldl push s').trimLine = (ns.foldl push s).trimLine := by
  simp only [placelessAll_eq_map] at hs hns ⊢
  exact foldl_push_view placeless_showsTexts hs ht hns

theorem endsWithWord_congr (hs : s'.sink.head?.map placeless = s.sink.head?.map placeless) :
    s'.sink.head?.any endsWithWord = s.sink.head?.any endsWithWord := by
  have hany := congrArg (Option.any endsWithWord) hs
  simpa [Option.any_map, Function.comp_def] using hany

theorem atStatementStart_congr (hs : s'.sink.head?.map placeless = s.sink.head?.map placeless)
    (hstart : s'.atStart = s.atStart) : s'.atStatementStart = s.atStatementStart := by
  unfold atStatementStart
  cases hn : s.sink with
  | nil =>
    cases hn' : s'.sink with
    | nil => exact hstart
    | cons n' ns' => simp [hn, hn'] at hs
  | cons n ns =>
    cases hn' : s'.sink with
    | nil => simp [hn, hn'] at hs
    | cons n' ns' =>
      simp only [hn, hn', List.head?_cons, Option.map_some, Option.some.injEq] at hs
      dsimp only
      rw [← endsStatement_placeless n', hs, endsStatement_placeless]

section Over
variable {top floor : List Node}

/-- A node that is added only touches the last one of a region, and nothing under that. -/
theorem push_over (hsink : s.sink = top ++ floor) (htop : top = [] → floor = []) (n : Node) :
    ∃ more, (s.push n).sink = more ++ floor ∧ push { s with sink := top } n = { s.push n with sink := more } ∧
      (more = [] → floor = []) := by
  cases top with
  | nil =>
    obtain rfl := htop rfl
    have hs : { s with sink := [] } = s := by rw [← show s.sink = [] from hsink]
    exact ⟨(s.push n).sink, by simp, by rw [hs], fun _ => rfl⟩
  | cons m top =>
    cases n with
    | text pos t =>
      simp only [push, pushText]
      generalize (if s.trimLine then trimText t else (t, false)) = p
      obtain ⟨trimmed, trimLine⟩ := p
      dsimp only
      split
      · exact ⟨m :: top, hsink, rfl, nofun⟩
      · rw [hsink]
        cases m <;> exact ⟨_ :: _, rfl, rfl, nofun⟩
    | _ => exact ⟨_ :: m :: top, congrArg _ hsink, rfl, nofun⟩

theorem foldl_push_over (hsink : s.sink = top ++ floor) (htop : top = [] → floor = []) (ns : List Node) :
    ∃ more, (ns.foldl push s).sink = more ++ floor ∧
      ns.foldl push { s with sink := top } = { ns.foldl push s with sink := more } ∧ (more = [] → floor = []) := by
  induction ns generalizing s top with
  | nil => exact ⟨top, hsink, rfl, htop⟩
  | cons n ns ih =>
    obtain ⟨next, hnext, hpush, hend⟩ := push_over hsink htop n
    obtain ⟨more, hmore, hpushes, hend⟩ := ih hnext hend
    refine ⟨more, hmore, ?_, hend⟩
    rw [List.foldl_cons, hpush, hpushes, List.foldl_cons]

end Over

end State
end Atmark
