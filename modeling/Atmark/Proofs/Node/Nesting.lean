import Mathlib.Data.List.Chain
import Atmark.Parse.State

/-! Well nested nodes. A list of nodes is well nested when it consists of complete elements and of
nodes that are no part of a tag, its texts are not empty and never neighbours, and the same holds of
every list inside it. Adding nodes to a region joins, shortens or drops texts and keeps all other nodes
(`Trimmed`), and that spoils no element (`Nested.trimmed`). -/
namespace Atmark

namespace Node

/-- The lists of nodes that a node holds. -/
def lists : Node → List (List Node)
  | .group _ ns | .write _ ns | .closure _ _ ns | .define _ _ ns | .attrValue _ _ ns => [ns]
  | _ => []

/-- A part of a tag. -/
def isTagPart : Node → Bool
  | .tagStart .. | .tagVoid .. | .tagEnd .. => true
  | .closeStart .. | .closeSelf .. | .closeVoid .. => true
  | .attrName .. | .attrEquals .. | .attrValue .. => true
  | _ => false

/-- A run of text. -/
def isText : Node → Bool
  | .text .. => true
  | _ => false

/-- The list `l` is `ns` or a list inside it, at any depth. -/
inductive Within (l : List Node) : List Node → Prop
  | self : Within l l
  | inner {n : Node} {ns k : List Node} : n ∈ ns → k ∈ n.lists → Within l k → Within l ns

/-- Every node satisfies `p`, at every depth. -/
def AllWithin (p : Node → Prop) (ns : List Node) : Prop := ∀ l, Within l ns → ∀ n ∈ l, p n

theorem allWithin_cons {p : Node → Prop} {n : Node} {ns : List Node} :
    AllWithin p (n :: ns) ↔ p n ∧ (∀ l ∈ n.lists, AllWithin p l) ∧ AllWithin p ns := by
  constructor
  · intro h
    refine ⟨h _ .self n (by simp), ?_, ?_⟩
    · intro l hl k hk
      exact h k (.inner (by simp) hl hk)
    · intro k hk m hm
      cases hk with
      | self => exact h _ .self m (by simp [hm])
      | inner hn hl hw => exact h k (.inner (by simp [hn]) hl hw) m hm
  · rintro ⟨hn, hl, hns⟩ k hk m hm
    cases hk with
    | self =>
      rcases List.mem_cons.mp hm with rfl | hm
      · exact hn
      · exact hns _ .self m hm
    | inner hmem hlist hw =>
      rcases List.mem_cons.mp hmem with rfl | hmem
      · exact hl _ hlist k hw m hm
      · exact hns k (.inner hmem hlist hw) m hm

theorem AllWithin.nil {p : Node → Prop} : AllWithin p [] := by
  intro k hk m hm
  cases hk with
  | self => cases hm
  | inner hn => cases hn

/-- How many forms of an attribute value are there: a quoted text, a number, an unquoted run, an
expression. -/
def forms (v : StaticValue) (expr : List Node) : Nat :=
  [v.text.isSome, v.literal.isSome, !v.run.isEmpty, !expr.isEmpty].count true

/-- Attributes: names, each alone or with an equals sign and a value that has one form. -/
inductive Attributes : List Node → Prop
  | nil : Attributes []
  | name {pos space name quoted ns} : Attributes ns →
      Attributes (.attrName pos space name quoted :: ns)
  | value {pos space name quoted equals at' v expr ns} : forms v expr = 1 → Attributes ns →
      Attributes (.attrName pos space name quoted :: .attrEquals equals ::
        .attrValue at' v expr :: ns)

/-- Complete elements, and nodes that are no part of a tag. -/
inductive Nested : List Node → Prop
  | nil : Nested []
  | node {n ns} : n.isTagPart = false → Nested ns → Nested (n :: ns)
  | void {name tokens attrs pos space slash ns} : Attributes attrs → Nested ns →
      Nested (.tagVoid name tokens :: attrs ++ .closeVoid pos space slash :: ns)
  | selfClosed {name tokens attrs pos space ns} : Attributes attrs → Nested ns →
      Nested (.tagStart name tokens :: attrs ++ .closeSelf pos space :: ns)
  | element {name tokens attrs pos space children stopPos stopName stopTokens ns} :
      Attributes attrs → Nested children → Text.sameFold stopName name = true → Nested ns →
      Nested (.tagStart name tokens :: attrs ++ .closeStart pos space ::
        (children ++ .tagEnd stopPos stopName stopTokens :: ns))

/-- No text is empty or stands beside another. -/
structure TextsApart (ns : List Node) : Prop where
  nonempty : ∀ pos, .text pos [] ∉ ns
  apart : ns.IsChain fun a b => (a.isText && b.isText) = false

/-- The list and every list inside it consist of complete elements and other nodes, with their texts
apart. -/
def WellNested (ns : List Node) : Prop := ∀ l, Within l ns → Nested l ∧ TextsApart l

/-- The lists that the nodes hold are well nested. -/
def HoldWellNested (ns : List Node) : Prop := ∀ n ∈ ns, ∀ l ∈ n.lists, WellNested l

/-- Nodes that can be added to a well nested list: whole elements and other nodes, each well nested
inside. -/
structure Whole (ns : List Node) : Prop where
  nested : Nested ns
  inside : HoldWellNested ns

theorem wellNested_iff {ns : List Node} :
    WellNested ns ↔ Nested ns ∧ TextsApart ns ∧ HoldWellNested ns := by
  constructor
  · intro h
    exact ⟨(h ns .self).1, (h ns .self).2, fun n hn l hl k hk => h k (.inner hn hl hk)⟩
  · rintro ⟨hn, ht, hi⟩ l hl
    cases hl with
    | self => exact ⟨hn, ht⟩
    | inner hm hk hw => exact hi _ hm _ hk l hw

theorem WellNested.nil : WellNested [] :=
  wellNested_iff.mpr ⟨.nil, ⟨by simp, .nil⟩, by simp [HoldWellNested]⟩

/-! ## Lists put together -/

theorem Attributes.append {xs ys : List Node} (hx : Attributes xs) (hy : Attributes ys) :
    Attributes (xs ++ ys) := by
  induction hx with
  | nil => exact hy
  | name _ ih => exact .name ih
  | value hf _ ih => exact .value hf ih

theorem Nested.append {xs ys : List Node} (hx : Nested xs) (hy : Nested ys) :
    Nested (xs ++ ys) := by
  induction hx with
  | nil => exact hy
  | node hn _ ih => exact .node hn ih
  | void ha _ ih => simpa using Nested.void ha ih
  | selfClosed ha _ ih => simpa using Nested.selfClosed ha ih
  | element ha hc hs _ _ ih => simpa using Nested.element ha hc hs ih

theorem Nested.of_plain {ns : List Node} (h : ∀ n ∈ ns, n.isTagPart = false) : Nested ns := by
  induction ns with
  | nil => exact .nil
  | cons n ns ih => exact .node (h n (by simp)) (ih fun m hm => h m (by simp [hm]))

theorem WellNested.whole {ns : List Node} (h : WellNested ns) : Whole ns :=
  ⟨(wellNested_iff.mp h).1, (wellNested_iff.mp h).2.2⟩

theorem HoldWellNested.append {xs ys : List Node} (hx : HoldWellNested xs) (hy : HoldWellNested ys) :
    HoldWellNested (xs ++ ys) := by
  intro n hn
  rcases List.mem_append.mp hn with hn | hn
  · exact hx n hn
  · exact hy n hn

theorem HoldWellNested.of_lists_nil {ns : List Node} (h : ∀ n ∈ ns, n.lists = []) :
    HoldWellNested ns := by
  intro n hn l hl
  rw [h n hn] at hl
  cases hl

theorem Whole.nil : Whole [] := WellNested.nil.whole

theorem Whole.append {xs ys : List Node} (hx : Whole xs) (hy : Whole ys) : Whole (xs ++ ys) :=
  ⟨hx.nested.append hy.nested, hx.inside.append hy.inside⟩

/-- A node that is no part of a tag. -/
theorem Whole.cons {n : Node} {ns : List Node} (hn : n.isTagPart = false)
    (hl : ∀ l ∈ n.lists, WellNested l) (hs : Whole ns) : Whole (n :: ns) := by
  refine ⟨.node hn hs.nested, ?_⟩
  intro m hm
  rcases List.mem_cons.mp hm with rfl | hm
  · exact hl
  · exact hs.inside m hm

/-- A node that is no part of a tag and holds no nodes. -/
theorem Whole.leaf {n : Node} {ns : List Node} (hn : n.isTagPart = false) (hl : n.lists = [])
    (hs : Whole ns) : Whole (n :: ns) :=
  hs.cons hn (by simp [hl])

theorem Whole.of_leaves {ns : List Node} (h : ∀ n ∈ ns, n.isTagPart = false ∧ n.lists = []) :
    Whole ns :=
  ⟨.of_plain fun n hn => (h n hn).1, .of_lists_nil fun n hn => (h n hn).2⟩

/-! ## Tokens as nodes -/

/-- Nodes of code alone, at every depth: no part of a tag and no text. -/
def Plain (ns : List Node) : Prop :=
  ∀ l, Within l ns → ∀ n ∈ l, n.isTagPart = false ∧ n.isText = false

theorem Plain.wellNested {ns : List Node} (h : Plain ns) : WellNested ns := by
  intro l hl
  have hp := h l hl
  refine ⟨.of_plain fun n hn => (hp n hn).1, fun pos hm => ?_, ?_⟩
  · cases (hp _ hm).2
  · exact (List.pairwise_of_forall_mem_list fun a ha b _ => by simp [(hp a ha).2]).isChain

theorem Plain.nil : Plain [] := by
  intro l hl
  cases hl with
  | self => simp
  | inner hm => cases hm

theorem Plain.cons {n : Node} {ns : List Node} (hn : n.isTagPart = false ∧ n.isText = false)
    (hl : ∀ l ∈ n.lists, Plain l) (hs : Plain ns) : Plain (n :: ns) := by
  intro l hw
  cases hw with
  | self =>
    intro m hm
    rcases List.mem_cons.mp hm with rfl | hm
    · exact hn
    · exact hs ns .self m hm
  | inner hm hk hw =>
    rcases List.mem_cons.mp hm with rfl | hm
    · exact hl _ hk l hw
    · exact hs l (.inner hm hk hw)

mutual

theorem ofToken_plain (t : Token) :
    ((ofToken t).isTagPart = false ∧ (ofToken t).isText = false) ∧
      ∀ l ∈ (ofToken t).lists, Plain l := by
  match t with
  | .ident _ | .literal _ | .punct _ => exact ⟨⟨rfl, rfl⟩, by simp [ofToken, lists]⟩
  | .group f ts =>
    refine ⟨⟨rfl, rfl⟩, ?_⟩
    intro l hl
    rw [ofToken, lists, List.mem_singleton] at hl
    rw [hl]
    exact ofTokensFrom_plain false ts

theorem ofTokensFrom_plain (skip : Bool) (ts : List Token) : Plain (ofTokensFrom skip ts) := by
  match ts with
  | [] => exact .nil
  | t :: ts =>
    unfold ofTokensFrom
    split
    · exact ofTokensFrom_plain false ts
    · split
      · exact .cons ⟨rfl, rfl⟩ (by simp [lists]) (ofTokensFrom_plain true ts)
      · exact .cons (ofToken_plain t).1 (ofToken_plain t).2 (ofTokensFrom_plain false ts)

end

theorem ofTokens_whole (ts : List Token) : Whole (ofTokens ts) :=
  (ofTokensFrom_plain false ts).wellNested.whole

/-! ## Joined and dropped texts -/

/-- The second list is the first with some texts changed or left out. -/
inductive Trimmed : List Node → List Node → Prop
  | nil : Trimmed [] []
  | keep {n xs ys} : Trimmed xs ys → Trimmed (n :: xs) (n :: ys)
  | drop {pos t xs ys} : Trimmed xs ys → Trimmed (.text pos t :: xs) ys
  | change {pos t pos' t' xs ys} : Trimmed xs ys →
      Trimmed (.text pos t :: xs) (.text pos' t' :: ys)

namespace Trimmed

theorem refl : ∀ ns, Trimmed ns ns
  | [] => .nil
  | _ :: ns => .keep (refl ns)

theorem append {xs xs' ys ys' : List Node} (h : Trimmed xs ys) (h' : Trimmed xs' ys') :
    Trimmed (xs ++ xs') (ys ++ ys') := by
  induction h with
  | nil => exact h'
  | keep _ ih => exact .keep ih
  | drop _ ih => exact .drop ih
  | change _ ih => exact .change ih

theorem trans {xs ys zs : List Node} (h : Trimmed xs ys) (h' : Trimmed ys zs) : Trimmed xs zs := by
  induction h generalizing zs with
  | nil => exact h'
  | drop _ ih => exact .drop (ih h')
  | keep _ ih =>
    cases h' with
    | keep h' => exact .keep (ih h')
    | drop h' => exact .drop (ih h')
    | change h' => exact .change (ih h')
  | change _ ih =>
    cases h' with
    | keep h' => exact .change (ih h')
    | drop h' => exact .drop (ih h')
    | change h' => exact .change (ih h')

theorem of_append {xs ys zs : List Node} (h : Trimmed (xs ++ ys) zs) :
    ∃ a b, zs = a ++ b ∧ Trimmed xs a ∧ Trimmed ys b := by
  induction xs generalizing zs with
  | nil => exact ⟨[], zs, rfl, .nil, h⟩
  | cons x xs ih =>
    cases h with
    | keep h =>
      obtain ⟨a, b, rfl, ha, hb⟩ := ih h
      exact ⟨_, b, rfl, .keep ha, hb⟩
    | drop h =>
      obtain ⟨a, b, rfl, ha, hb⟩ := ih h
      exact ⟨_, b, rfl, .drop ha, hb⟩
    | change h =>
      obtain ⟨a, b, rfl, ha, hb⟩ := ih h
      exact ⟨_, b, rfl, .change ha, hb⟩

/-- What is no text stays. -/
theorem of_cons {n : Node} {xs zs : List Node} (hn : n.isText = false) (h : Trimmed (n :: xs) zs) :
    ∃ ys, zs = n :: ys ∧ Trimmed xs ys := by
  cases h with
  | keep h => exact ⟨_, rfl, h⟩
  | drop | change => cases hn

theorem of_attributes {attrs xs zs : List Node} (ha : Attributes attrs)
    (h : Trimmed (attrs ++ xs) zs) : ∃ ys, zs = attrs ++ ys ∧ Trimmed xs ys := by
  induction ha generalizing zs with
  | nil => exact ⟨zs, rfl, h⟩
  | name _ ih =>
    obtain ⟨_, rfl, h₁⟩ := of_cons rfl h
    obtain ⟨ys, rfl, hy⟩ := ih h₁
    exact ⟨ys, rfl, hy⟩
  | value _ _ ih =>
    obtain ⟨_, rfl, h₁⟩ := of_cons rfl h
    obtain ⟨_, rfl, h₂⟩ := of_cons rfl h₁
    obtain ⟨_, rfl, h₃⟩ := of_cons rfl h₂
    obtain ⟨ys, rfl, hy⟩ := ih h₃
    exact ⟨ys, rfl, hy⟩

/-- A node of the second list is a text or a node of the first. -/
theorem mem {xs ys : List Node} (h : Trimmed xs ys) {n : Node} (hn : n ∈ ys) :
    n.isText = true ∨ n ∈ xs := by
  induction h with
  | nil => cases hn
  | keep _ ih =>
    rcases List.mem_cons.mp hn with rfl | hn
    · exact .inr (by simp)
    · exact (ih hn).imp_right fun h => by simp [h]
  | drop _ ih => exact (ih hn).imp_right fun h => by simp [h]
  | change _ ih =>
    rcases List.mem_cons.mp hn with rfl | hn
    · exact .inl rfl
    · exact (ih hn).imp_right fun h => by simp [h]

end Trimmed

/-- Texts may be changed and left out anywhere between elements and inside them. -/
theorem Nested.trimmed {xs ys : List Node} (hx : Nested xs) (h : Trimmed xs ys) : Nested ys := by
  induction hx generalizing ys with
  | nil => cases h; exact .nil
  | node hn _ ih =>
    cases h with
    | keep h => exact .node hn (ih h)
    | drop h => exact ih h
    | change h => exact .node rfl (ih h)
  | void ha _ ih =>
    obtain ⟨_, rfl, h₁⟩ := Trimmed.of_cons rfl h
    obtain ⟨_, rfl, h₂⟩ := Trimmed.of_attributes ha h₁
    obtain ⟨_, rfl, h₃⟩ := Trimmed.of_cons rfl h₂
    exact .void ha (ih h₃)
  | selfClosed ha _ ih =>
    obtain ⟨_, rfl, h₁⟩ := Trimmed.of_cons rfl h
    obtain ⟨_, rfl, h₂⟩ := Trimmed.of_attributes ha h₁
    obtain ⟨_, rfl, h₃⟩ := Trimmed.of_cons rfl h₂
    exact .selfClosed ha (ih h₃)
  | element ha _ hs _ ihc ih =>
    obtain ⟨_, rfl, h₁⟩ := Trimmed.of_cons rfl h
    obtain ⟨_, rfl, h₂⟩ := Trimmed.of_attributes ha h₁
    obtain ⟨_, rfl, h₃⟩ := Trimmed.of_cons rfl h₂
    obtain ⟨_, _, rfl, hc, h₄⟩ := Trimmed.of_append h₃
    obtain ⟨_, rfl, h₅⟩ := Trimmed.of_cons rfl h₄
    exact .element ha (ihc hc) hs (ih h₅)

/-! ## Texts apart -/

theorem TextsApart.reverse {ns : List Node} (h : TextsApart ns) : TextsApart ns.reverse := by
  refine ⟨fun pos hp => h.nonempty pos (List.mem_reverse.mp hp), ?_⟩
  rw [List.isChain_reverse]
  exact h.apart.imp fun a b hab => by rw [Bool.and_comm]; exact hab

theorem TextsApart.cons {n : Node} {ns : List Node} (h : TextsApart ns) (hn : n.isText = false) :
    TextsApart (n :: ns) := by
  refine ⟨fun pos hp => ?_, ?_⟩
  · rcases List.mem_cons.mp hp with rfl | hp
    · cases hn
    · exact h.nonempty pos hp
  · rw [List.isChain_cons]
    exact ⟨fun b _ => by simp [hn], h.apart⟩

theorem TextsApart.cons_text {pos : Option Position} {t : Text} {ns : List Node}
    (h : TextsApart ns) (ht : t ≠ []) (hn : ∀ n ∈ ns.head?, n.isText = false) :
    TextsApart (.text pos t :: ns) := by
  refine ⟨fun p hp => ?_, ?_⟩
  · rcases List.mem_cons.mp hp with hp | hp
    · cases hp; exact ht rfl
    · exact h.nonempty p hp
  · rw [List.isChain_cons]
    exact ⟨fun b hb => by simp [hn b hb], h.apart⟩

theorem TextsApart.tail {n : Node} {ns : List Node} (h : TextsApart (n :: ns)) : TextsApart ns :=
  ⟨fun pos hp => h.nonempty pos (List.mem_cons_of_mem _ hp), h.apart.tail⟩

/-- A node that is neither a part of a tag nor a text. -/
theorem WellNested.cons {n : Node} {ns : List Node} (hn : n.isTagPart = false)
    (ht : n.isText = false) (hl : ∀ l ∈ n.lists, WellNested l) (hs : WellNested ns) :
    WellNested (n :: ns) := by
  have h := hs.whole.cons hn hl
  exact wellNested_iff.mpr ⟨h.nested, (hs ns .self).2.cons ht, h.inside⟩

/-- A node of code that holds no nodes. -/
theorem WellNested.leaf {n : Node} {ns : List Node} (hn : n.isTagPart = false)
    (ht : n.isText = false) (hl : n.lists = []) (hs : WellNested ns) : WellNested (n :: ns) :=
  hs.cons hn ht (by simp [hl])

end Node

/-! ## Adding nodes to a region -/

namespace State
open Node

/-- What a text does to the nodes of a region: nothing, it joins the text before it, or it is a new
node after one that is no text. -/
theorem pushText_sink (s : State) (pos : Option Position) (t : Text) :
    (s.pushText pos t).sink = s.sink ∨
    (∃ p before rest p' more, s.sink = .text p before :: rest ∧ more ≠ [] ∧
      (s.pushText pos t).sink = .text p' (before ++ more) :: rest) ∨
    (t ≠ [] ∧ (∀ n ∈ s.sink.head?, n.isText = false) ∧
      (s.pushText pos t).sink = .text pos t :: s.sink) := by
  unfold pushText
  obtain ⟨trimmed, line, hp⟩ : ∃ trimmed line,
      (if s.trimLine then trimText t else (t, false)) = (trimmed, line) := ⟨_, _, rfl⟩
  rw [hp]
  dsimp only
  have ht : t = [] → trimmed = [] := by
    rintro rfl
    split at hp <;> cases hp <;> rfl
  split
  · exact .inl rfl
  · rename_i hne
    have hne : trimmed ≠ [] := by simpa using hne
    split
    · rename_i p before rest hs
      exact .inr (.inl ⟨p, before, rest, _, trimmed, hs, hne, rfl⟩)
    · rename_i hs
      refine .inr (.inr ⟨fun h => hne (ht h), ?_, rfl⟩)
      intro n hn
      cases n with
      | text p before =>
        obtain ⟨rest, hr⟩ := List.head?_eq_some_iff.mp hn
        exact (hs p before rest hr).elim
      | _ => rfl

theorem pushText_trimmed (s : State) (pos : Option Position) (t : Text) :
    Trimmed (s.sink.reverse ++ [.text pos t]) (s.pushText pos t).sink.reverse := by
  rcases s.pushText_sink pos t with h | ⟨p, before, rest, p', more, hs, -, h⟩ | ⟨-, -, h⟩
  · rw [h]
    simpa using (Trimmed.refl s.sink.reverse).append (.drop .nil)
  · rw [h, hs]
    simpa using (Trimmed.refl rest.reverse).append (.change (.drop .nil))
  · rw [h, List.reverse_cons]
    exact Trimmed.refl _

theorem push_trimmed (s : State) (n : Node) :
    Trimmed (s.sink.reverse ++ [n]) (s.push n).sink.reverse := by
  cases n with
  | text pos t => exact s.pushText_trimmed pos t
  | _ => simpa [push] using Trimmed.refl _

theorem foldl_push_trimmed (ns : List Node) (s : State) :
    Trimmed (s.sink.reverse ++ ns) (ns.foldl push s).sink.reverse := by
  induction ns generalizing s with
  | nil => simpa using Trimmed.refl _
  | cons n ns ih =>
    have h := (s.push_trimmed n).append (Trimmed.refl ns)
    rw [List.append_assoc] at h
    exact h.trans (ih (s.push n))

/-- The text before is joined, so that a new text never stands beside another. -/
theorem pushText_textsApart {s : State} (h : TextsApart s.sink) (pos : Option Position) (t : Text) :
    TextsApart (s.pushText pos t).sink := by
  rcases s.pushText_sink pos t with hx | ⟨p, before, rest, p', more, hs, hm, hx⟩ | ⟨ht, hn, hx⟩
  · rw [hx]
    exact h
  · rw [hx]
    rw [hs] at h
    refine h.tail.cons_text (by simp [hm]) ?_
    intro n hn
    simpa [isText] using (List.isChain_cons.mp h.apart).1 n hn
  · rw [hx]
    exact h.cons_text ht hn

theorem push_textsApart {s : State} (h : TextsApart s.sink) (n : Node) :
    TextsApart (s.push n).sink := by
  cases n with
  | text pos t => exact pushText_textsApart h pos t
  | _ => exact h.cons rfl

theorem foldl_push_textsApart {s : State} (h : TextsApart s.sink) (ns : List Node) :
    TextsApart (ns.foldl push s).sink := by
  induction ns generalizing s with
  | nil => exact h
  | cons n ns ih => exact ih (push_textsApart h n)

/-- A region stays well nested when whole nodes are added to it. -/
theorem foldl_push_wellNested {s : State} {ns : List Node} (hs : WellNested s.sink.reverse)
    (hn : Whole ns) : WellNested (ns.foldl push s).sink.reverse := by
  rw [wellNested_iff] at hs ⊢
  have ht := s.foldl_push_trimmed ns
  refine ⟨(hs.1.append hn.nested).trimmed ht, ?_, ?_⟩
  · exact (foldl_push_textsApart (by simpa using hs.2.1.reverse) ns).reverse
  · intro n hm
    rcases ht.mem hm with hx | hx
    · cases n with
      | text => simp [lists]
      | _ => cases hx
    · rcases List.mem_append.mp hx with hx | hx
      · exact hs.2.2 n hx
      · exact hn.inside n hx

end State
end Atmark
