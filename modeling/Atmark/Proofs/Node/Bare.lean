import Atmark.Parse.Tag

/-! Nodes without the positions of their texts. Where a text stands is the only thing about a node that can
depend on how its content was found; all else that is read off nodes while parsing is the same for nodes that
are bare the same. -/
namespace Atmark

namespace Node

mutual

/-- The node without the positions of the texts in it. -/
def bare : Node → Node
  | .text _ t => .text none t
  | .group f ns => .group f (bareAll ns)
  | .attrValue pos v e => .attrValue pos v (bareAll e)
  | .write pos e => .write pos (bareAll e)
  | .closure t f ns => .closure t f (bareAll ns)
  | .define pos name ns => .define pos name (bareAll ns)
  | n => n

/-- Nodes without the positions of the texts in them. -/
def bareAll : List Node → List Node
  | [] => []
  | n :: ns => n.bare :: bareAll ns

end

theorem bareAll_eq_map (ns : List Node) : bareAll ns = ns.map bare := by
  induction ns with
  | nil => rfl
  | cons n ns ih => rw [bareAll, ih, List.map_cons]

@[simp] theorem bareAll_append (ns ms : List Node) : bareAll (ns ++ ms) = bareAll ns ++ bareAll ms := by
  simp [bareAll_eq_map]

@[simp] theorem bareAll_reverse (ns : List Node) : bareAll ns.reverse = (bareAll ns).reverse := by
  simp [bareAll_eq_map]

@[simp] theorem isEmpty_bareAll (ns : List Node) : (bareAll ns).isEmpty = ns.isEmpty := by
  cases ns <;> rfl

theorem bareAll_eq_cons {ns ms : List Node} {m : Node} (h : bareAll ns = m :: ms) :
    ∃ n ns', ns = n :: ns' ∧ n.bare = m ∧ bareAll ns' = ms := by
  cases ns with
  | nil => cases h
  | cons n ns =>
    obtain ⟨hn, hns⟩ := List.cons.inj h
    exact ⟨n, ns, rfl, hn, hns⟩

@[simp] theorem endsStatement_bare (n : Node) : n.bare.endsStatement = n.endsStatement := by
  cases n <;> rfl

@[simp] theorem endsWithWord_bare (n : Node) : n.bare.endsWithWord = n.endsWithWord := by
  cases n <;> rfl

end Node

open Node

/-! ## What is made of nodes -/

/-- The value without the positions of the texts in it. -/
def AttrValue.bare (v : AttrValue) : AttrValue := { v with expr := bareAll v.expr }

/-- The attribute without the positions of the texts in it. -/
def Attribute.bare (a : Attribute) : Attribute := { a with value := a.value.map AttrValue.bare }

/-- The attributes read so far without the positions of the texts in them. -/
def TagReading.bare (r : TagReading) : TagReading :=
  { r with nodes := bareAll r.nodes, attributes := r.attributes.map Attribute.bare }

/-- The tag without the positions of the texts in it. -/
def TagContext.bare (c : TagContext) : TagContext :=
  { c with
    attributes := c.attributes.map Attribute.bare, nodes := bareAll c.nodes,
    close := c.close.map Node.bare }

/-- The element without the positions of the texts in it. -/
def ElementContext.bare (c : ElementContext) : ElementContext :=
  { c with
    attributes := c.attributes.map Attribute.bare, start := bareAll c.start,
    children := bareAll c.children, stop := bareAll c.stop }

/-- The fragment without the positions of the texts in it. -/
def Fragment.bare (f : Fragment) : Fragment := { f with nodes := bareAll f.nodes }

@[simp] theorem AttrValue.static?_bare (v : AttrValue) : v.bare.static? = v.static? := by
  simp [static?, AttrValue.bare]

theorem TagContext.default_bare (c : TagContext) : c.bare.default = bareAll c.default := by
  cases h : c.close <;> simp [default, TagContext.bare, h, bareAll]

theorem ElementContext.default_bare (c : ElementContext) : c.bare.default = bareAll c.default := by
  simp [default, ElementContext.bare]

namespace TagReading

theorem withoutValue_bare (r : TagReading) : r.withoutValue.bare = r.bare.withoutValue := by
  unfold withoutValue
  cases h : r.key <;> simp [TagReading.bare, h, bareAll, Node.bare, keyNode, Attribute.bare]

theorem withValue_bare (r : TagReading) (k : AttrKey) (equals : Option Position) (v : AttrValue) :
    (r.withValue k equals v).bare = r.bare.withValue k equals v.bare := rfl

theorem startKey_bare (r : TagReading) (t : Token) : (r.startKey t).bare = r.bare.startKey t := by
  unfold startKey
  rw [← withoutValue_bare]
  cases t <;> rfl

theorem addKey_bare (r : TagReading) (t : Token) : (r.addKey t).bare = r.bare.addKey t := by
  unfold addKey
  have hkey : r.bare.key = r.key := rfl
  rw [hkey]
  split
  · split
    · rfl
    · exact startKey_bare r t
  · exact startKey_bare r t

end TagReading

/-! ## Adding nodes to a region -/

/-- A view of nodes shows what text a node is, if it is one, and not where the text stands. -/
structure Node.ShowsTexts {β : Type} (v : Node → β) : Prop where
  same : ∀ pos pos' t, v (.text pos t) = v (.text pos' t)
  text : ∀ n pos t, v n = v (.text pos t) → ∃ pos', n = .text pos' t

theorem Node.bare_showsTexts : ShowsTexts bare where
  same _ _ _ := rfl
  text n pos t h := by
    cases n with
    | text pos' t' =>
      obtain rfl : t' = t := by simpa [bare] using h
      exact ⟨pos', rfl⟩
    | _ => simp [bare] at h

namespace State
variable {β : Type} {v : Node → β}

/-- Texts go to regions that look the same in the same way, wherever they stand. -/
theorem pushText_view (hv : ShowsTexts v) {s s' : State} (hs : s.sink.map v = s'.sink.map v)
    (ht : s.trimLine = s'.trimLine) (pos pos' : Option Position) (t : Text) :
    (s.pushText pos t).sink.map v = (s'.pushText pos' t).sink.map v ∧
      (s.pushText pos t).trimLine = (s'.pushText pos' t).trimLine := by
  unfold pushText
  rw [ht]
  generalize (if s'.trimLine then trimText t else (t, false)) = p
  obtain ⟨trimmed, trimLine⟩ := p
  dsimp only
  cases trimmed.isEmpty with
  | true => exact ⟨hs, rfl⟩
  | false =>
    cases hsink : s.sink with
    | nil =>
      rw [hsink] at hs
      have hsink' : s'.sink = [] := List.map_eq_nil_iff.mp hs.symm
      rw [hsink']
      exact ⟨congrArg (· :: []) (hv.same pos pos' t), rfl⟩
    | cons n ns =>
      rw [hsink] at hs
      obtain ⟨n', ns', hsink', hn, hns⟩ := List.map_eq_cons_iff.mp hs.symm
      rw [hsink']
      -- Either both last nodes are texts, and the same, or neither is.
      simp only [Bool.false_eq_true, if_false]
      split
      · rename_i p before rest hcons
        obtain ⟨rfl, rfl⟩ := List.cons.inj hcons
        obtain ⟨p', rfl⟩ := hv.text n' p before hn
        simp only [List.map_cons, hns, hv.same _ none (before ++ trimmed), and_self]
      · rename_i hother
        split
        · rename_i p' before' rest' hcons'
          obtain ⟨rfl, rfl⟩ := List.cons.inj hcons'
          obtain ⟨p, rfl⟩ := hv.text n p' before' hn.symm
          exact (hother p before' ns rfl).elim
        · simp only [List.map_cons, hns, hn, hv.same _ none t, and_self]

theorem push_view (hv : ShowsTexts v) {s s' : State} (hs : s.sink.map v = s'.sink.map v)
    (ht : s.trimLine = s'.trimLine) {n n' : Node} (hn : v n = v n') :
    (s.push n).sink.map v = (s'.push n').sink.map v ∧ (s.push n).trimLine = (s'.push n').trimLine := by
  have hcons : v n :: s.sink.map v = v n' :: s'.sink.map v := by rw [hn, hs]
  cases n with
  | text pos t =>
    obtain ⟨pos', rfl⟩ := hv.text n' pos t hn.symm
    exact pushText_view hv hs ht pos pos' t
  | _ =>
    cases n' with
    | text pos' t' =>
      obtain ⟨pos, hpos⟩ := hv.text _ pos' t' hn
      cases hpos
    | _ => exact ⟨hcons, rfl⟩

theorem foldl_push_view (hv : ShowsTexts v) {s s' : State} (hs : s.sink.map v = s'.sink.map v)
    (ht : s.trimLine = s'.trimLine) {ns ns' : List Node} (hns : ns.map v = ns'.map v) :
    (ns.foldl push s).sink.map v = (ns'.foldl push s').sink.map v ∧
      (ns.foldl push s).trimLine = (ns'.foldl push s').trimLine := by
  induction ns generalizing s s' ns' with
  | nil =>
    rw [List.map_eq_nil_iff.mp hns.symm]
    exact ⟨hs, ht⟩
  | cons n ns ih =>
    obtain ⟨n', ms, rfl, hn, hms⟩ := List.map_eq_cons_iff.mp hns.symm
    obtain ⟨hs', ht'⟩ := push_view hv hs ht hn.symm
    exact ih hs' ht' hms.symm

/-- Nodes go to regions that are bare the same in the same way. -/
theorem foldl_push_bare {s s' : State} (hs : bareAll s.sink = bareAll s'.sink)
    (ht : s.trimLine = s'.trimLine) {ns ns' : List Node} (hns : bareAll ns = bareAll ns') :
    bareAll (ns.foldl push s).sink = bareAll (ns'.foldl push s').sink ∧
      (ns.foldl push s).trimLine = (ns'.foldl push s').trimLine := by
  rw [bareAll_eq_map, bareAll_eq_map] at hs hns ⊢
  exact foldl_push_view bare_showsTexts hs ht hns

end State
end Atmark
