import Atmark.Proofs.Code.Unplaced
import Atmark.Directive.Builtin
import Atmark.Proofs.Code.Markup
import Atmark.Proofs.Code.Separation
import Atmark.Proofs.Parse.Contract
import Atmark.Proofs.Token.Verbatim

/-! Expressions that are copied. Code without the characters that mean something of their own is read token by token,
and every token comes out as it went in (`Tools.selectors_copies`, `Registry.loop_copies`). So an expression between
parentheses is written as it stands, if no `<` in it starts a tag (`Template.parse_explicit`). -/
namespace Atmark
open ParseM

/-! ## Nodes that are copied -/

/-- A token before which no path separator starts. -/
theorem Node.ofTokens_cons {t : Token} (h : t.isPunct ':' = false) (ts : List Token) :
    ofTokens (t :: ts) = ofToken t :: ofTokens ts := by
  have hsep : isPathSeparator t ts = false := by simp [isPathSeparator, h]
  rw [ofTokens, ofTokensFrom, if_neg Bool.false_ne_true, hsep, if_neg Bool.false_ne_true, ← ofTokens]

theorem Node.ofTokens_append {ts : List Token} (h : ∀ t ∈ ts, t.isPunct ':' = false) (us : List Token) :
    ofTokens (ts ++ us) = ofTokens ts ++ ofTokens us := by
  induction ts with
  | nil => rfl
  | cons t ts ih =>
    have ht := h t (.head _)
    rw [List.cons_append, ofTokens_cons ht, ofTokens_cons ht, ih fun u hu => h u (.tail _ hu), List.cons_append]

theorem Node.ofTokens_isText (ts : List Token) : ∀ n ∈ ofTokens ts, n.isText = false := by
  have hfrom (ts : List Token) : ∀ skip, ∀ n ∈ ofTokensFrom skip ts, n.isText = false := by
    induction ts with
    | nil => exact fun _ _ hn => (List.not_mem_nil hn).elim
    | cons t ts ih =>
      intro skip n hn
      unfold ofTokensFrom at hn
      split at hn
      · exact ih _ n hn
      · split at hn
        · rcases List.mem_cons.mp hn with rfl | hn
          · rfl
          · exact ih _ n hn
        · rcases List.mem_cons.mp hn with rfl | hn
          · cases t <;> rfl
          · exact ih _ n hn
  exact hfrom ts false

namespace Code
variable {marks : List Char} {t : Token} {ts : List Token} (buf : Text)

theorem joinFrom_tokens (last : Option Token) (ts : List Token) :
    joinFrom last (ts.map fun t => ⟨[t], false⟩) = ts := by
  induction ts generalizing last with
  | nil => rfl
  | cons t ts ih => simp [joinFrom, ih]

mutual

/-- A token without path separators in it is lowered to itself. -/
theorem nodePieces_ofToken (hmarks : ':' ∈ marks) : (t : Token) → Token.Verbatim marks [t] →
    nodePieces buf (.ofToken t) = [⟨[t], false⟩]
  | .ident _, _ | .literal _, _ | .punct _, _ => rfl
  | .group f ts, h => by
    rw [Node.ofToken, nodePieces, ← Node.ofTokens, piecesFrom_ofTokens hmarks ts h.group, join, joinFrom_tokens]

/-- Tokens without path separators in them are lowered one by one. -/
theorem piecesFrom_ofTokens (hmarks : ':' ∈ marks) : (ts : List Token) → Token.Verbatim marks ts →
    piecesFrom buf [] none (Node.ofTokens ts) = ts.map fun t => ⟨[t], false⟩
  | [], _ => rfl
  | t :: ts, h => by
    have hcons := Node.ofTokens_cons (h.isPunct_eq_false hmarks (.head _)) ts
    have htext : (Node.ofToken t).isText = false := by cases t <;> rfl
    have hnode := nodePieces_ofToken hmarks t (h.mono (by simp))
    rw [hcons, piecesFrom_cons buf _ _ _ htext, hnode, piecesFrom_ofTokens hmarks ts h.tail]
    rfl

end

mutual

/-- In a token nothing is left for later. -/
theorem resolveNode_ofToken (settings : Settings) (w : World) : (t : Token) →
    resolveNode settings (.ofToken t) w = .ok (.ofToken t) w
  | .ident _ | .literal _ | .punct _ => rfl
  | .group f ts => by
    rw [Node.ofToken, resolveNode]
    simp only [bind, EStateM.bind, resolve_ofTokensFrom settings w ts false]
    rfl

theorem resolve_ofTokensFrom (settings : Settings) (w : World) : (ts : List Token) → ∀ skip,
    resolve settings (Node.ofTokensFrom skip ts) w = .ok (Node.ofTokensFrom skip ts) w
  | [], _ => rfl
  | t :: ts, skip => by
    have hcons {n : Node} {ns : List Node} (hn : resolveNode settings n w = .ok n w)
        (hns : resolve settings ns w = .ok ns w) : resolve settings (n :: ns) w = .ok (n :: ns) w := by
      rw [resolve]
      simp only [bind, EStateM.bind, hn, hns]
      rfl
    unfold Node.ofTokensFrom
    split
    · exact resolve_ofTokensFrom settings w ts false
    · split
      · exact hcons rfl (resolve_ofTokensFrom settings w ts true)
      · exact hcons (resolveNode_ofToken settings w t) (resolve_ofTokensFrom settings w ts false)

end

end Code

/-! ## Steps over tokens that are copied -/

/-- From `s` to `u` the nodes `ns` are added to the region, and the tokens `ts` are left. -/
structure State.Copies (s : State) (ns : List Node) (ts : List Token) (u : State) : Prop where
  rest : u.stream.rest = ts
  sink : u.sink = ns.reverse ++ s.sink
  world : u.world = s.world
  declared : u.declared = s.declared
  markup : u.markup = s.markup
  atStart : u.atStart = s.atStart
  broken : u.broken = s.broken

/-- Code with less than `n` tokens is left to be read, which will be copied. -/
structure State.Copyable (n : Nat) (s : State) : Prop where
  budget : s.world.budget = none
  broken : s.broken = false
  markup : s.markup = false
  verbatim : Token.Verbatim Token.codeMarks s.stream.rest
  calm : Token.calmFrom s.atStatementStart s.stream.rest = true
  weights : Token.weights s.stream.rest < n

theorem State.Copies.trans {s s₁ s₂ : State} {ns ms : List Node} {ts us : List Token} (h : s.Copies ns ts s₁)
    (h' : s₁.Copies ms us s₂) : s.Copies (ns ++ ms) us s₂ where
  rest := h'.rest
  sink := by rw [h'.sink, h.sink, List.reverse_append, List.append_assoc]
  world := h'.world.trans h.world
  declared := h'.declared.trans h.declared
  markup := h'.markup.trans h.markup
  atStart := h'.atStart.trans h.atStart
  broken := h'.broken.trans h.broken

theorem State.Copies.atStatementStart {s u : State} {ts : List Token} (h : s.Copies [] ts u) :
    u.atStatementStart = s.atStatementStart := by
  unfold State.atStatementStart
  rw [h.sink, h.atStart]
  rfl

/-- A step that adds nothing leaves the code as it was. -/
theorem State.Copyable.idle {n : Nat} {s u : State} (h : s.Copyable n) (hu : s.Copies [] s.stream.rest u) :
    u.Copyable n where
  budget := by rw [hu.world, h.budget]
  broken := by rw [hu.broken, h.broken]
  markup := by rw [hu.markup, h.markup]
  verbatim := by rw [hu.rest]; exact h.verbatim
  calm := by rw [hu.atStatementStart, hu.rest]; exact h.calm
  weights := by rw [hu.rest]; exact h.weights

/-- Where a statement can start is told by the last token that was copied. -/
theorem State.atStatementStart_tokens {pre : List Token} (h : ∀ t ∈ pre, t.isPunct ':' = false) {s u : State}
    (hsink : u.sink = (Node.ofTokens pre).reverse ++ s.sink) (hstart : u.atStart = s.atStart) :
    u.atStatementStart = pre.foldl (fun _ t => t.endsStatement) s.atStatementStart := by
  induction pre generalizing s with
  | nil =>
    unfold State.atStatementStart
    rw [hsink, hstart]
    rfl
  | cons t pre ih =>
    rw [Node.ofTokens_cons (h t (.head _)), List.reverse_cons, List.append_assoc] at hsink
    have hmore := ih (s := { s with sink := .ofToken t :: s.sink }) (fun u hu => h u (.tail _ hu)) hsink hstart
    rw [hmore, List.foldl_cons]
    cases t <;> rfl

/-- After some of the tokens were copied, the others can be. -/
theorem State.Copyable.after {n : Nat} {s u : State} {pre post : List Token} (hs : s.Copyable (n + 1))
    (hrest : s.stream.rest = pre ++ post) (hne : pre ≠ []) (hu : s.Copies (Node.ofTokens pre) post u) :
    u.Copyable n where
  budget := by rw [hu.world, hs.budget]
  broken := by rw [hu.broken, hs.broken]
  markup := by rw [hu.markup, hs.markup]
  verbatim := by
    rw [hu.rest]
    exact hs.verbatim.mono fun t ht => hrest ▸ List.mem_append_right _ ht
  calm := by
    have hcolon : ∀ t ∈ pre, t.isPunct ':' = false := fun t ht =>
      hs.verbatim.isPunct_eq_false (by decide) (hrest ▸ List.mem_append_left _ ht)
    rw [atStatementStart_tokens hcolon hu.sink hu.atStart, hu.rest]
    exact Token.calmFrom_append (hrest ▸ hs.calm)
  weights := by
    have hn := hs.weights
    obtain ⟨t, pre, rfl⟩ := List.exists_cons_of_ne_nil hne
    have hpos := Token.weight_pos t
    rw [hrest, Token.weights_append, Token.weights] at hn
    rw [hu.rest]
    omega

/-- The step returns `a`, adds the nodes `ns` to the region and leaves the tokens `ts`. -/
def ParseM.Copied {α : Type} (m : ParseM α) (s : State) (a : α) (ns : List Node) (ts : List Token) : Prop :=
  ∃ u, Returns m s a u ∧ s.Copies ns ts u

/-- Resuming copies the code that is left, if it can be copied. -/
def Tools.Copying (n : Nat) (t : Tools) : Prop :=
  ∀ s, s.Copyable n → t.resume.Copied s none (Node.ofTokens s.stream.rest) []

namespace ParseM.Copied
variable {α β : Type} {s : State} {ns ms : List Node} {ts us : List Token}

theorem bind {m : ParseM α} {f : α → ParseM β} {a : α} {b : β} (h : m.Copied s a ns ts)
    (hf : ∀ u, s.Copies ns ts u → (f a).Copied u b ms us) : (m >>= f).Copied s b (ns ++ ms) us := by
  obtain ⟨v, hm, hv⟩ := h
  obtain ⟨u, hu, hu'⟩ := hf v hv
  exact ⟨u, hm.andThen hu, hv.trans hu'⟩

/-- A step that adds nothing comes first. -/
theorem next {m : ParseM α} {f : α → ParseM β} {a : α} {b : β} (h : m.Copied s a [] ts)
    (hf : ∀ u, s.Copies [] ts u → (f a).Copied u b ms us) : (m >>= f).Copied s b ms us := h.bind hf

/-- A step that adds nothing comes last. -/
theorem before {m : ParseM α} {f : α → ParseM β} {a : α} {b : β} (h : m.Copied s a ns ts)
    (hf : ∀ u, s.Copies ns ts u → (f a).Copied u b [] us) : (m >>= f).Copied s b ns us := by
  have hall := h.bind hf
  rwa [List.append_nil] at hall

/-- Which result and which tokens come out may depend on the state after the first step. -/
theorem exists_next {m : ParseM α} {f : α → ParseM β} {a : α} {p : β → List Token → Prop}
    (h : m.Copied s a [] ts) (hf : ∀ u, s.Copies [] ts u → ∃ b us, p b us ∧ (f a).Copied u b ms us) :
    ∃ b us, p b us ∧ (m >>= f).Copied s b ms us := by
  obtain ⟨v, hm, hv⟩ := h
  obtain ⟨b, us, hp, u, hu, hu'⟩ := hf v hv
  exact ⟨b, us, hp, u, hm.andThen hu, hv.trans hu'⟩

theorem pure (a : α) : (Pure.pure a : ParseM α).Copied s a [] s.stream.rest :=
  ⟨s, rfl, ⟨rfl, rfl, rfl, rfl, rfl, rfl, rfl⟩⟩

theorem get {f : State → ParseM β} {b : β} (h : (f s).Copied s b ms us) :
    (MonadState.get >>= f).Copied s b ms us := h

theorem look {f : List Token → ParseM β} {b : β} (h : (f s.stream.rest).Copied s b ms us) :
    (ParseM.rest >>= f).Copied s b ms us := h

theorem rest : ParseM.rest.Copied s s.stream.rest [] s.stream.rest := pure _

theorem peek {f : Option Token → ParseM β} {b : β} (h : (f s.stream.rest.head?).Copied s b ms us) :
    (ParseM.peek >>= f).Copied s b ms us := h

theorem skip (k : Nat) : (ParseM.skip k).Copied s () [] (s.stream.rest.drop k) :=
  ⟨_, rfl, ⟨Stream.rest_skip _ _, rfl, rfl, rfl, rfl, rfl, rfl⟩⟩

theorem setLast (pos : Option Position) : (ParseM.setLast pos).Copied s () [] s.stream.rest :=
  ⟨_, rfl, ⟨rfl, rfl, rfl, rfl, rfl, rfl, rfl⟩⟩

theorem checkStop (h : s.world.budget = none) : ParseM.checkStop.Copied s () [] s.stream.rest := by
  obtain ⟨⟨_, _, _, _⟩, _⟩ := s
  cases h
  exact pure ()

theorem emitText_nil (pos : Option Position) : (emitText [] pos).Copied s () [] s.stream.rest := by
  refine ⟨_, rfl, ?_⟩
  cases hs : s.trimLine <;> simp only [State.pushText, hs] <;> exact ⟨rfl, rfl, rfl, rfl, rfl, rfl, rfl⟩

/-- Nodes that are no texts are added one by one. -/
theorem emit (ns : List Node) (h : ∀ n ∈ ns, n.isText = false) :
    (ParseM.emit ns).Copied s () ns s.stream.rest := by
  refine ⟨_, rfl, ?_⟩
  induction ns generalizing s with
  | nil => exact ⟨rfl, rfl, rfl, rfl, rfl, rfl, rfl⟩
  | cons n ns ih =>
    have hpush : s.Copies [n] s.stream.rest (s.push n) := by
      cases n with
      | text => exact absurd (h _ (.head _)) (by simp [Node.isText])
      | _ => exact ⟨rfl, rfl, rfl, rfl, rfl, rfl, rfl⟩
    have hrest := ih (s := s.push n) fun m hm => h m (.tail _ hm)
    rw [hpush.rest] at hrest
    exact hpush.trans hrest

end ParseM.Copied

namespace Tools
variable {t : Tools} {n : Nat} {s : State}

/-- The tokens of a group are copied, and the region around it stays. -/
theorem region_copies (ht : t.Copying n) {f : Frame} {cs : List Token} (hbudget : s.world.budget = none)
    (hbroken : s.broken = false) (hcs : Token.Verbatim Token.codeMarks cs)
    (hcalm : Token.calm (.group f cs) = true) (hn : Token.weights cs < n) :
    (t.region f cs false).Copied s (Node.ofTokens cs) [] s.stream.rest := by
  obtain ⟨v, hv⟩ : ∃ v : State, v = { s with
    stream := .ofGroup f cs, sink := [], markup := false, atStart := f.delim.holdsStatements } := ⟨_, rfl⟩
  have hcopyable : v.Copyable n := by
    subst hv
    exact ⟨hbudget, hbroken, rfl, hcs, hcalm, hn⟩
  have hparse : t.parse.Copied v none (Node.ofTokens v.stream.rest) [] := by
    refine ParseM.Copied.next (.checkStop hcopyable.budget) fun w hw => ?_
    have hcopied := ht w (hcopyable.idle hw)
    rwa [hw.rest] at hcopied
  obtain ⟨u, hresume, hcopies⟩ := hparse
  have hsink : u.sink.reverse = Node.ofTokens cs := by
    rw [hcopies.sink, hv, List.append_nil, List.reverse_reverse]
    rfl
  refine ⟨{ u with stream := s.stream, sink := s.sink, markup := s.markup, atStart := s.atStart }, ?_, ?_⟩
  · refine Returns.andThen (a := s) rfl ?_
    refine Returns.andThen (a := ⟨⟩) (t := v) (by rw [hv]; rfl) ?_
    refine Returns.andThen hresume ?_
    refine Returns.andThen (a := u) rfl ?_
    refine Returns.andThen rfl ?_
    rw [← hsink]
    rfl
  · have hworld := hcopies.world
    have hdeclared := hcopies.declared
    have hbroken' := hcopies.broken
    rw [hv] at hworld hdeclared hbroken'
    exact ⟨rfl, rfl, hworld, hdeclared, rfl, rfl, hbroken'⟩

/-- The nodes are those of the first tokens, and the others are left. -/
def TakesFrom (ts : List Token) (ns : List Node) (post : List Token) : Prop :=
  ∃ pre, ts = pre ++ post ∧ ns = Node.ofTokens pre

theorem selectors_none (ts : List Token) (u : State) (hu : u.stream.rest = ts) :
    ∃ ns post, TakesFrom ts ns post ∧ (pure [] : ParseM (List Node)).Copied u ns [] post :=
  ⟨[], ts, ⟨[], rfl, rfl⟩, hu ▸ .pure _⟩

/-- The selectors behind an identifier are copied as far as they go. -/
theorem selectors_copies (ht : t.Copying n) {ts : List Token} {statement : Bool} (hbudget : s.world.budget = none)
    (hbroken : s.broken = false) (hrest : s.stream.rest = ts) (hverbatim : Token.Verbatim Token.codeMarks ts)
    (hcalm : Token.calmFrom statement ts = true) (hn : Token.weights ts < n) :
    ∃ ns post, TakesFrom ts ns post ∧ (t.selectors ts).Copied s ns [] post := by
  fun_induction Tools.selectors t ts generalizing s statement with
  | case1 =>
    exact ParseM.Copied.exists_next (.checkStop hbudget) fun u hu => selectors_none [] u (hu.rest.trans hrest)
  | case2 tok ts ihDot ihPath ihGroup =>
    have hnone := selectors_none (tok :: ts)
    refine ParseM.Copied.exists_next (.checkStop hbudget) fun u hu => ?_
    rw [hrest] at hu
    split
    · exact hnone u hu.rest
    refine ParseM.Copied.exists_next (.setLast _) fun v hv => ?_
    have hv := hu.trans (hu.rest ▸ hv)
    split
    · rename_i p _
      split
      · split
        · split
          · rename_i i ts' hglued
            have htake {ns : List Node} {post : List Token} (h : TakesFrom ts' ns post) :
                TakesFrom (.punct p :: .ident i :: ts') (.punct p :: .ident i :: ns) post := by
              obtain ⟨pre, rfl, rfl⟩ := h
              refine ⟨.punct p :: .ident i :: pre, rfl, ?_⟩
              rw [Node.ofTokens_cons (hverbatim.isPunct_eq_false (by decide) (.head _)), Node.ofTokens_cons rfl]
              rfl
            refine ParseM.Copied.exists_next (.skip 2) fun w hw => ?_
            have hw := hv.trans hw
            rw [hv.rest] at hw
            have hweights : Token.weights ts' < n := by
              simp only [Token.weights] at hn
              omega
            obtain ⟨ns, post, htakes, hcopied⟩ := ihDot (by rw [hw.world, hbudget]) (hw.broken.trans hbroken)
              hw.rest hverbatim.tail.tail (Token.calm_of_cons (Token.calm_of_cons hcalm).2).2 hweights
            exact ⟨_, post, htake htakes, hcopied.next fun x hx => hx.rest ▸ .pure _⟩
          · exact hnone v hv.rest
        · exact hnone v hv.rest
      · rename_i hdot
        split
        · rename_i hcolon
          exact (hverbatim.marks p (.here (.head _)) (by rw [hcolon]; decide)).elim
        · split
          · rename_i hpostfix
            refine (hverbatim.marks p (.here (.head _)) ?_).elim
            simp only [Bool.or_eq_true, decide_eq_true_eq] at hpostfix
            rcases hpostfix with hc | hc
            · rw [hc]; decide
            · rw [hc]; decide
          · exact hnone v hv.rest
    · rename_i f cs _
      split
      · exact hnone v hv.rest
      · have htake {ns : List Node} {post : List Token} (h : TakesFrom ts ns post) :
            TakesFrom (.group f cs :: ts) (.group f (Node.ofTokens cs) :: ns) post := by
          obtain ⟨pre, rfl, rfl⟩ := h
          refine ⟨.group f cs :: pre, rfl, ?_⟩
          rw [Node.ofTokens_cons rfl]
          rfl
        have hweights : Token.weights cs < n ∧ Token.weights ts < n := by
          simp only [Token.weights, Token.weight] at hn
          omega
        refine ParseM.Copied.exists_next (.skip 1) fun w hw => ?_
        have hw := hv.trans hw
        rw [hv.rest] at hw
        refine ParseM.Copied.exists_next (region_copies ht (by rw [hw.world, hbudget]) (hw.broken.trans hbroken)
          hverbatim.group (Token.calm_of_cons hcalm).1 hweights.1) fun x hx => ?_
        have hx := hw.trans (hw.rest ▸ hx)
        obtain ⟨ns, post, htakes, hcopied⟩ := ihGroup (by rw [hx.world, hbudget]) (hx.broken.trans hbroken) hx.rest
          hverbatim.tail (Token.calm_of_cons hcalm).2 hweights.2
        exact ⟨_, post, htake htakes, hcopied.next fun y hy => hy.rest ▸ .pure _⟩
    · exact hnone v hv.rest

/-- The expression at an identifier is copied. -/
theorem expression_copies (ht : t.Copying n) {id : Ident} {ts : List Token} (hs : s.Copyable (n + 1))
    (hrest : s.stream.rest = .ident id :: ts) :
    ∃ ns post, (∃ pre, ts = pre ++ post ∧ ns = Node.ofTokens (.ident id :: pre)) ∧
      t.expression.Copied s ns [] post := by
  have hverbatim : Token.Verbatim Token.codeMarks (.ident id :: ts) := hrest ▸ hs.verbatim
  have hcalm : Token.calmFrom s.atStatementStart (.ident id :: ts) = true := hrest ▸ hs.calm
  have hweights : Token.weights (.ident id :: ts) < n + 1 := hrest ▸ hs.weights
  refine ParseM.Copied.exists_next .rest fun u hu => ?_
  rw [hrest] at hu ⊢
  refine ParseM.Copied.exists_next (.skip 1) fun v hv => ?_
  have hv := hu.trans hv
  rw [hu.rest] at hv
  refine ParseM.Copied.exists_next .rest fun w hw => ?_
  have hw := hv.trans hw
  rw [hv.rest] at hw
  have hweights : Token.weights ts < n := by
    have hn := hs.weights
    rw [hrest, Token.weights, Token.weight] at hn
    omega
  obtain ⟨_, post, ⟨pre, rfl, rfl⟩, hcopied⟩ := selectors_copies ht (by rw [hw.world, hs.budget])
    (hw.broken.trans hs.broken) hw.rest hverbatim.tail (Token.calm_of_cons hcalm).2 hweights
  refine ⟨_, post, ⟨pre, rfl, Node.ofTokens_cons rfl pre⟩, ?_⟩
  rw [hv.rest]
  exact hcopied.next fun x hx => hx.rest ▸ .pure _

/-- A character of code that no function starts at is copied. -/
theorem code_copies {p : Punct} {ts : List Token} (hrest : s.stream.rest = .punct p :: ts) (hp : p.char ≠ '|') :
    (t.code p).Copied s () [.punct p] ts := by
  have hemit {u : State} (hu : s.Copies [] ts u) : (emit [.punct p]).Copied u () [.punct p] ts := by
    have hpunct : ∀ n ∈ [Node.punct p], n.isText = false := by simp [Node.isText]
    exact hu.rest ▸ ParseM.Copied.emit _ hpunct
  refine ParseM.Copied.next (.skip 1) fun u hu => ?_
  rw [hrest] at hu
  refine ParseM.Copied.look ?_
  split
  · rw [if_neg (by simp [hp])]
    exact hemit hu
  · exact hemit hu

/-- A group of code is copied. -/
theorem group_copies (ht : t.Copying n) {f : Frame} {cs : List Token} (hmarkup : s.markup = false)
    (hbudget : s.world.budget = none) (hbroken : s.broken = false) (hcs : Token.Verbatim Token.codeMarks cs)
    (hcalm : Token.calm (.group f cs) = true) (hn : Token.weights cs < n) :
    (t.group f cs).Copied s () [.ofToken (.group f cs)] s.stream.rest := by
  refine ParseM.Copied.get ?_
  rw [if_neg (by simp [hmarkup])]
  refine ParseM.Copied.next (region_copies ht hbudget hbroken hcs hcalm hn) fun v hv => ?_
  have hgroup : ∀ n ∈ [Node.group f (Node.ofTokens cs)], n.isText = false := by simp [Node.isText]
  exact hv.rest ▸ ParseM.Copied.emit _ hgroup

end Tools

namespace Registry
variable {r : Registry} {t : Tools} {n : Nat} {s : State}

/-- A `<` that starts no tag is copied. -/
theorem tagEntry_copies {lt : Punct} {ts : List Token} (hrest : s.stream.rest = .punct lt :: ts)
    (hmarkup : s.markup = false) (hverbatim : Token.Verbatim Token.codeMarks ts) (hopens : Token.opensTag ts = false) :
    (r.tagEntry t lt ts).Copied s none [.punct lt] ts := by
  have hhead (p : Token → Bool) : (ts.head?.filter Token.glued).any p = ts.head?.any fun u => u.glued && p u := by
    cases ts with
    | nil => rfl
    | cons u ts => cases hu : u.glued <;> simp [hu, Option.filter]
  have hcomment : startsWithMarks ['<', '!', '-', '-'] (.punct lt :: ts) = false := by
    cases ts with
    | nil => simp [startsWithMarks, gluedMarks]
    | cons u ts => simp [startsWithMarks, gluedMarks, hverbatim.isPunct_eq_false (c := '!') (by decide) (.head _)]
  simp only [Token.opensTag, Bool.or_eq_false_iff] at hopens
  refine ParseM.Copied.get ?_
  simp only [hmarkup, hhead, hopens.1, hopens.2, hcomment, Bool.false_eq_true, if_false]
  refine ParseM.Copied.next (.skip 1) fun u hu => ?_
  rw [hrest, List.drop_one, List.tail_cons] at hu
  have hpunct : ∀ n ∈ [Node.punct lt], n.isText = false := by simp [Node.isText]
  refine (ParseM.Copied.emit _ hpunct).before fun v hv => ?_
  rw [hu.rest] at hv
  exact hv.rest ▸ .pure _

theorem goOn_copies (ht : t.Copying n) (hs : s.Copyable n) :
    (goOn t).Copied s none (Node.ofTokens s.stream.rest) [] := by
  refine ParseM.Copied.get ?_
  rw [hs.broken, if_neg Bool.false_ne_true]
  exact ht s hs

/-- A turn at the end of the stream adds nothing. -/
theorem turn_ends (hbudget : s.world.budget = none) (hrest : s.stream.rest = []) : (r.turn t).Copied s none [] [] := by
  refine ParseM.Copied.next (.checkStop hbudget) fun u hu => ?_
  refine ParseM.Copied.look ?_
  have hpure := ParseM.Copied.pure (s := u) (none : Option ClosingTag)
  rw [hu.rest, hrest] at hpure ⊢
  exact hpure

/-- A turn in code takes tokens and copies them, and the others are copied afterwards. -/
theorem turn_copies (ht : t.Copying n) (hs : s.Copyable (n + 1)) :
    (r.turn t).Copied s none (Node.ofTokens s.stream.rest) [] := by
  cases hrest : s.stream.rest with
  | nil => exact turn_ends hs.budget hrest
  | cons tok ts =>
    refine ParseM.Copied.next (.checkStop hs.budget) fun u hu => ?_
    have hs := hs.idle hu
    rw [hrest] at hu
    refine ParseM.Copied.look ?_
    rw [hu.rest]
    refine ParseM.Copied.next (.setLast _) fun v hv => ?_
    have hs := hs.idle hv
    rw [hu.rest] at hv
    refine ParseM.Copied.get ?_
    rw [hs.markup]
    -- Every turn takes the tokens of the nodes that it adds.
    have hgo {α : Type} {pre post : List Token} (hne : pre ≠ []) (htakes : tok :: ts = pre ++ post) {m : ParseM α}
        {a : α} (hm : m.Copied v a (Node.ofTokens pre) post) {f : α → ParseM (Option ClosingTag)}
        (hf : f a = goOn t) : (m >>= f).Copied v none (Node.ofTokens (tok :: ts)) [] := by
      have hcolon : ∀ t ∈ pre, t.isPunct ':' = false := fun t ht =>
        hs.verbatim.isPunct_eq_false (by decide) (hv.rest ▸ htakes ▸ List.mem_append_left _ ht)
      rw [htakes, Node.ofTokens_append hcolon]
      refine hm.bind fun w hw => ?_
      have hcopied := goOn_copies ht (hs.after (hv.rest.trans htakes) hne hw)
      rwa [hw.rest, ← hf] at hcopied
    have hverbatim : Token.Verbatim Token.codeMarks (tok :: ts) := hv.rest ▸ hs.verbatim
    have hcalm : Token.calmFrom v.atStatementStart (tok :: ts) = true := hv.rest ▸ hs.calm
    have hweights : Token.weights (tok :: ts) < n + 1 := hv.rest ▸ hs.weights
    have hemit {n : Node} (hn : n.isText = false) {w : State} (hw : v.Copies [] ts w) :
        (emit [n]).Copied w () [n] ts := hw.rest ▸ ParseM.Copied.emit _ (by simpa using hn)
    have hskip {m : ParseM Unit} {ns : List Node} (hm : ∀ w, v.Copies [] ts w → m.Copied w () ns ts) :
        (skip 1 >>= fun _ => m).Copied v () ns ts := by
      refine ParseM.Copied.next (.skip 1) fun w hw => ?_
      rw [hv.rest] at hw
      exact hm w hw
    cases tok with
    | ident id =>
      obtain ⟨ns, post, ⟨pre, hpre, hns⟩, hexpr⟩ := Tools.expression_copies ht hs hv.rest
      have htexts : ∀ n ∈ ns, n.isText = false := by
        rw [hns]
        exact Node.ofTokens_isText _
      have htaken : (t.expression >>= emit).Copied v () (Node.ofTokens (.ident id :: pre)) post := by
        refine hexpr.next fun w hw => ?_
        rw [← hns, ← hw.rest]
        exact ParseM.Copied.emit ns htexts
      have hwhole := hgo (by simp) (by rw [hpre, List.cons_append]) htaken (f := fun _ => goOn t) rfl
      rwa [bind_assoc] at hwhole
    | literal l =>
      have htaken : (skip 1 >>= fun _ => emit [.literal l]).Copied v () (Node.ofTokens [.literal l]) ts :=
        hskip fun w hw => hemit rfl hw
      have hwhole := hgo (by simp) rfl htaken (f := fun _ => goOn t) rfl
      rwa [bind_assoc] at hwhole
    | group f cs =>
      have hcs : Token.weights cs < n := by
        simp only [Token.weights, Token.weight] at hweights
        omega
      have htaken : (skip 1 >>= fun _ => t.group f cs).Copied v () (Node.ofTokens [.group f cs]) ts :=
        hskip fun w hw => hw.rest ▸ Tools.group_copies ht (by rw [hw.markup, hs.markup]) (by rw [hw.world, hs.budget])
          (by rw [hw.broken, hs.broken]) hverbatim.group (Token.calm_of_cons hcalm).1 hcs
      have hwhole := hgo (by simp) rfl htaken (f := fun _ => goOn t) rfl
      rwa [bind_assoc] at hwhole
    | punct p =>
      have hmarks := hverbatim.marks p (.here (.head _))
      have hat : p.char ≠ '@' := by
        rintro hc
        exact hmarks (by rw [hc]; decide)
      have hbrace : p.char ≠ '\x7d' := by
        rintro hc
        exact hmarks (by rw [hc]; decide)
      have hbar : p.char ≠ '|' := by
        rintro hc
        exact hmarks (by rw [hc]; decide)
      have hpunct : Node.ofTokens [.punct p] = [.punct p] :=
        Node.ofTokens_cons (hverbatim.isPunct_eq_false (by decide) (.head _)) []
      have hcode : (t.code p).Copied v () (Node.ofTokens [.punct p]) ts := hpunct ▸ Tools.code_copies hv.rest hbar
      simp only [Token.action, hat, hbrace, if_false, Bool.false_or, Bool.not_false, Bool.and_true, decide_false,
        Bool.false_eq_true]
      by_cases hlt : p.char = '<'
      · cases hstart : v.atStatementStart with
        | false =>
          simp only [hlt, if_true, Bool.false_eq_true, if_false]
          exact hgo (by simp) rfl hcode rfl
        | true =>
          simp only [hlt, if_true]
          have hopens : Token.opensTag ts = false := by
            have hlt' : Token.isPunct '<' (.punct p) = true := by simp [Token.isPunct, hlt]
            rw [hstart, Token.calmFrom, hlt'] at hcalm
            simp only [Bool.and_eq_true, Bool.not_eq_true'] at hcalm
            simpa using hcalm.1.1
          have hentry : (r.tagEntry t p ts).Copied v none (Node.ofTokens [.punct p]) ts :=
            hpunct ▸ tagEntry_copies hv.rest hs.markup hverbatim.tail hopens
          exact hgo (by simp) rfl hentry rfl
      · simp only [hlt, if_false]
        exact hgo (by simp) rfl hcode rfl

theorem loop_copies (r : Registry) (settings : Settings) (embed : Text → Text → ParseM Fragment) (n : Nat)
    (hs : s.Copyable n) : (r.loop settings embed n).Copied s none (Node.ofTokens s.stream.rest) [] := by
  induction n generalizing s with
  | zero => exact absurd hs.weights (Nat.not_lt_zero _)
  | succ n ih => exact turn_copies (fun s hs => ih hs) hs

/-- An expression between parentheses at the beginning of a region is written as it stands. -/
theorem marker_copies (ht : t.Copying n) {m : Punct} {f : Frame} {cs ts : List Token} (hsink : s.sink = [])
    (hrest : s.stream.rest = .punct m :: .group f cs :: ts) (hm : m.space = []) (hf : f.space = [])
    (hdelim : f.delim = .parenthesis) (hbudget : s.world.budget = none) (hbroken : s.broken = false) (hne : cs ≠ [])
    (hcs : Token.Verbatim Token.codeMarks cs) (hcalm : Token.calmFrom false cs = true) (hn : Token.weights cs < n) :
    (r.marker t (.punct m)).Copied s () [.write m.pos (Node.ofTokens cs)] ts := by
  have hgroup : Token.calm (.group f cs) = true := by rwa [Token.calm, hdelim]
  have hnodes : (Node.ofTokens cs).isEmpty = false := by
    obtain ⟨c, cs, rfl⟩ := List.exists_cons_of_ne_nil hne
    rw [Node.ofTokens_cons (hcs.isPunct_eq_false (by decide) (.head _))]
    rfl
  refine ParseM.Copied.next (.skip 1) fun u hu => ?_
  rw [hrest, List.drop_one, List.tail_cons] at hu
  refine ParseM.Copied.get ?_
  have husink : u.sink = [] := hu.sink.trans hsink
  have hglued {v : State} (hv : s.Copies [] (.group f cs :: ts) v) :
      (r.gluedToMarker t m.pos).Copied v () [.write m.pos (Node.ofTokens cs)] ts := by
    refine ParseM.Copied.peek ?_
    rw [hv.rest]
    have hf' : (Token.group f cs).glued = true := by simp [Token.glued, Token.space, hf]
    simp only [List.head?_cons, hf', Bool.not_true, Bool.false_eq_true, if_false]
    refine ParseM.Copied.next (.setLast _) fun w hw => ?_
    have hw := hv.trans hw
    rw [hv.rest] at hw
    simp only [afterMarker, hdelim, if_true]
    refine ParseM.Copied.next (.skip 1) fun x hx => ?_
    have hx := hw.trans hx
    rw [hw.rest, List.drop_one, List.tail_cons] at hx
    refine ParseM.Copied.next (Tools.region_copies ht (by rw [hx.world, hbudget]) (hx.broken.trans hbroken) hcs
      hgroup hn) fun y hy => ?_
    rw [hnodes]
    rw [hx.rest] at hy
    have hwrite : ∀ n ∈ [Node.write m.pos (Node.ofTokens cs)], n.isText = false := by simp [Node.isText]
    exact hy.rest ▸ ParseM.Copied.emit _ hwrite
  rw [husink]
  simp only [List.head?_nil, Option.any_none, Bool.and_false, Bool.false_eq_true, if_false]
  split
  · have hspace : (emitText (Token.punct m).space m.pos).Copied u () [] (.group f cs :: ts) := by
      rw [Token.space, hm]
      exact hu.rest ▸ .emitText_nil _
    exact hspace.next fun v hv => hglued (hu.trans hv)
  · exact hglued hu

/-- There are turns enough for all tokens. -/
theorem weights_lt_turns (r : Registry) (w : World) (tokens : List Token) :
    Token.weights tokens < r.turns w tokens := by
  have hpow := Nat.le_self_pow (n := 4) (by decide) (Token.weights tokens + 1)
  unfold Registry.turns
  split
  · exact Nat.lt_of_lt_of_le (Nat.lt_succ_self _) (Nat.le_trans hpow (Nat.le_add_right _ _))
  · exact Nat.lt_succ_self _

/-- A turn at the beginning of a region writes an expression between parentheses, up to the end of the stream. -/
theorem turn_writes (ht : t.Copying n)
    (hend : ∀ u : State, u.world.budget = none → u.stream.rest = [] → t.resume.Copied u none [] [])
    {m : Punct} {f : Frame} {cs : List Token} (hat : m.char = '@') (hsink : s.sink = [])
    (hrest : s.stream.rest = [.punct m, .group f cs]) (hm : m.space = []) (hf : f.space = [])
    (hdelim : f.delim = .parenthesis) (hbudget : s.world.budget = none) (hbroken : s.broken = false) (hne : cs ≠ [])
    (hcs : Token.Verbatim Token.codeMarks cs) (hcalm : Token.calmFrom false cs = true) (hn : Token.weights cs < n) :
    (r.turn t).Copied s none [.write m.pos (Node.ofTokens cs)] [] := by
  refine ParseM.Copied.next (.checkStop hbudget) fun u hu => ?_
  rw [hrest] at hu
  refine ParseM.Copied.look ?_
  rw [hu.rest]
  refine ParseM.Copied.next (.setLast _) fun v hv => ?_
  have hv := hu.trans (hu.rest ▸ hv)
  refine ParseM.Copied.get ?_
  have haction : (Token.punct m).action v.markup v.atStatementStart = .marker := by simp [Token.action, hat]
  rw [haction]
  refine (marker_copies ht (hv.sink.trans hsink) hv.rest hm hf hdelim (by rw [hv.world, hbudget])
    (hv.broken.trans hbroken) hne hcs hcalm hn).before fun w hw => ?_
  have hw := hv.trans hw
  refine ParseM.Copied.get ?_
  rw [hw.broken, hbroken, if_neg Bool.false_ne_true]
  exact hend w (by rw [hw.world, hbudget]) hw.rest

end Registry

/-- The tokens of a source, written as an explicit expression, come out as the one argument of a call that writes
their value, whatever white space there is in them, if no `<` in them starts a tag. -/
theorem Template.parse_explicit (r : Registry) (settings : Settings) (path : Text) {src left space : Text}
    {es : List Token} {w : World} (hlex : Token.lex src = .ok (es, left)) (hne : es ≠ [])
    (hverbatim : Token.Verbatim ['@', '|', ':', '?', '!'] es) (hcalm : Token.calmFrom false es = true)
    (hspace : Item.Blank space) (hw : w.budget = none) :
    ∃ t args pos,
      parse r settings path (utf8 "@(" ++ Token.sourceWithSpace es ++ space ++ utf8 ")") w = .ok t w ∧
      Code.ofNodes settings t.nodes w = .ok (Code.call settings.buffer "WriteValue" args pos).tokens w ∧
      Token.unplacedAll args = Code.unspaced (Token.unplacedAll es) := by
  obtain ⟨pos, f, us, hlex', hf, hdelim, hus⟩ := Token.lex_enclosed hlex hspace
  have husmarks : Token.Verbatim Token.codeMarks us := (hverbatim.of_lex hlex).of_unplaced hus
  have huscalm : Token.calmFrom false us = true := by
    rw [← Token.calmFrom_unplaced, hus, Token.calmFrom_unplaced, hcalm]
  have husne : us ≠ [] := by
    rintro rfl
    exact hne (Token.unplacedAll_eq_nil hus.symm)
  generalize hm : (⟨pos, [], '@'⟩ : Punct) = m at hlex'
  obtain ⟨k, hk, hn⟩ : ∃ k, r.turns w [.punct m, .group f us] = k + 1 + 1 ∧ Token.weights us < k + 1 := by
    have hturns := r.weights_lt_turns w [.punct m, .group f us]
    simp only [Token.weights, Token.weight] at hturns
    exact ⟨r.turns w [.punct m, .group f us] - 2, by omega, by omega⟩
  obtain ⟨includes, hincludes⟩ : ∃ n, includeBound settings = n + 1 := ⟨_, rfl⟩
  have hread : (r.readTokens settings (r.embedIn settings includes [] path) (r.turns w [.punct m, .group f us])
      [.punct m, .group f us] []).Copied
      { world := w, path, includers := [], stream := .ofTokens [.punct m, .group f us] } ()
      [.write m.pos (Node.ofTokens us)] [] := by
    refine ParseM.Copied.next (.checkStop hw) fun u hu => ?_
    have hloop : (r.loop settings (r.embedIn settings includes [] path) (k + 1 + 1)).Copied u none
        [.write m.pos (Node.ofTokens us)] [] :=
      Registry.turn_writes (fun s hs => Registry.loop_copies r settings _ (k + 1) hs)
        (fun u hu hrest => Registry.turn_ends hu hrest) (by rw [← hm]) hu.sink hu.rest (by rw [← hm]) hf hdelim
        (by rw [hu.world, hw]) hu.broken husne husmarks huscalm hn
    rw [hk]
    refine hloop.before fun v hv => ?_
    exact hv.rest ▸ .emitText_nil _
  obtain ⟨u, hu, hcopies⟩ := hread
  have hsource : r.parseSource settings (includes + 1) [] path
      (utf8 "@(" ++ Token.sourceWithSpace es ++ space ++ utf8 ")") w = .ok (u.sink.reverse, u.declared) w := by
    rw [Registry.parseSource_lexed r settings includes [] path _ w hlex', WorldM.ofParse, hu]
    simp only [hcopies.world]
  refine ⟨⟨path, u.declared, u.sink.reverse⟩, Code.unspaced us, m.pos, ?_, ?_, ?_⟩
  · rw [parse, hincludes]
    simp only [bind, EStateM.bind, hsource]
    rfl
  · have hresolve : Code.resolve settings u.sink.reverse w = .ok u.sink.reverse w := by
      refine Code.resolve_eq_self fun n hn => ?_
      obtain rfl : n = .write m.pos (Node.ofTokens us) := by simpa [hcopies.sink] using hn
      rw [Code.resolveNode]
      simp only [bind, EStateM.bind, Node.ofTokens, Code.resolve_ofTokensFrom]
      rfl
    have hlower : Code.lower settings.buffer u.sink.reverse =
        (Code.call settings.buffer "WriteValue" (Code.unspaced us) m.pos).tokens := by
      have hpieces := Code.piecesFrom_ofTokens settings.buffer (by decide) us husmarks
      rw [hcopies.sink, Code.lower]
      simp [Code.piecesFrom, Code.nodePieces, Code.flush, hpieces, Code.join, Code.joinFrom_tokens, Code.joinFrom,
        Code.writeValue]
    simp only [Code.ofNodes, bind, EStateM.bind, hresolve, hlower]
    rfl
  · rw [Code.unplacedAll_unspaced, hus]

/-- Behind a call and an index `<` is an operator if white space or another operator follows. -/
theorem Template.parse_explicit_operators : ∃ es left t args pos,
    Token.lex (utf8 "f(x) < y && a[0]<= b<c") = .ok (es, left) ∧ es ≠ [] ∧
    Token.Verbatim ['@', '|', ':', '?', '!'] es ∧ Token.calmFrom false es = true ∧
    Item.Blank (utf8 " ") ∧ ({} : World).budget = none ∧
    parse .standard { markdown := .ok } (utf8 "index.rhtml")
      (utf8 "@(" ++ Token.sourceWithSpace es ++ utf8 " " ++ utf8 ")") {} = .ok t {} ∧
    Code.ofNodes { markdown := .ok } t.nodes {} = .ok (Code.call (utf8 "html") "WriteValue" args pos).tokens {} ∧
    Token.unplacedAll args = Code.unspaced (Token.unplacedAll es) := by
  have hpasses : (Token.lex (utf8 "f(x) < y && a[0]<= b<c")).toOption.any (fun found => !found.1.isEmpty &&
      Token.areVerbatim ['@', '|', ':', '?', '!'] found.1 && Token.calmFrom false found.1) = true := by decide +kernel
  cases hlex : Token.lex (utf8 "f(x) < y && a[0]<= b<c") with
  | error e =>
    rw [hlex] at hpasses
    cases hpasses
  | ok found =>
    obtain ⟨es, left⟩ := found
    simp only [hlex, Except.toOption, Option.any_some, Bool.and_eq_true, Bool.not_eq_true',
      List.isEmpty_eq_false_iff] at hpasses
    obtain ⟨⟨hne, hall⟩, hcalm⟩ := hpasses
    have hverbatim := Token.Verbatim.of_areVerbatim hall
    have hspace : Item.Blank (utf8 " ") := by
      intro b hb
      obtain rfl : b = 0x20 := List.mem_singleton.mp hb
      rfl
    obtain ⟨t, args, pos, hparse, hcode, hargs⟩ := Template.parse_explicit .standard { markdown := .ok }
      (utf8 "index.rhtml") hlex hne hverbatim hcalm hspace (w := {}) rfl
    exact ⟨es, left, t, args, pos, rfl, hne, hverbatim, hcalm, hspace, rfl, hparse, hcode, hargs⟩

end Atmark
