import Atmark.Proofs.Code.Separation
import Atmark.Proofs.Directive.Growth

/-! Where the code of loops, conditions and blocks starts. The keyword of a loop or condition is added
right after the nodes of the region, and so are the nodes of a block; nothing parts them from code that
stands there already. White space before the marker is written in markup, and left out in code. So their
code starts a statement of its own exactly if what was written before ends with a semicolon, or if it
stands on a new line (`marker_startsStatement_iff`). -/
namespace Atmark
open Node ParseM

/-! ## What stays in the region -/

/-- The nodes of the region are those of `below`, and possibly more. -/
def State.Above (below : List Node) (s : State) : Prop := ∃ more, s.sink = more ++ below

theorem State.Above.push {below : List Node} (hb : ∀ n ∈ below.head?, n.isText = false) {s : State}
    (h : s.Above below) (n : Node) : (s.push n).Above below := by
  obtain ⟨more, hs⟩ := h
  cases n with
  | text pos t =>
    change (s.pushText pos t).Above below
    rcases s.pushText_sink pos t with hx | ⟨p, before, rest, p', added, hp, -, hx⟩ | ⟨-, -, hx⟩
    · exact ⟨more, hx.trans hs⟩
    · cases more with
      | nil =>
        rw [hs, List.nil_append] at hp
        have := hb (.text p before) (by rw [hp]; rfl)
        cases this
      | cons n more =>
        rw [hs] at hp
        cases hp
        exact ⟨_ :: more, hx⟩
    · exact ⟨_ :: more, by rw [hx, hs]; rfl⟩
  | _ => exact ⟨_ :: more, congrArg (List.cons _) hs⟩

theorem State.Above.foldl_push {below : List Node} (hb : ∀ n ∈ below.head?, n.isText = false)
    {s : State} (h : s.Above below) (ns : List Node) : (ns.foldl State.push s).Above below := by
  induction ns generalizing s with
  | nil => exact h
  | cons n ns ih => exact ih (h.push hb n)

theorem State.push_above (s : State) {n : Node} (hn : n.isText = false) :
    (s.push n).Above (n :: s.sink) := by
  cases n with
  | text => cases hn
  | _ => exact ⟨[], rfl⟩

namespace ParseM

theorem ofSink_eq (below : List Node) : OfSink fun s => s.sink = below :=
  fun _ _ h hs => hs.trans h

/-- Only a text is changed by what is added after it. -/
theorem growing_above {below : List Node} (hb : ∀ n ∈ below.head?, n.isText = false) :
    Growing (State.Above below) :=
  ⟨fun _ _ ⟨more, h⟩ hs => ⟨more, hs.trans h⟩, fun _ n h => h.push hb n⟩

end ParseM

/-! ## Loops and conditions -/

namespace Directive

/-- The keyword goes right after the nodes of the region, and the rest after it. -/
theorem emit_keyword {α : Type} {tok : Token} {name : Text} {m : ParseM α} {s s' : State} {a : α}
    {Q : α → Prop} (hm : Keeps (State.Above (keyword tok name "" :: s.sink)) m Q)
    (h : Returns (do emit [keyword tok name ""]; m) s a s') :
    s'.Above (keyword tok name "" :: s.sink) ∧ Q a := by
  obtain ⟨_, s₁, hemit, h₁⟩ := h.bind
  have hs₁ := hemit.modify
  exact hm s₁ a s' (by rw [hs₁]; exact s.push_above rfl) h₁

variable {t : Tools} {id : Ident} {s s' : State} {out : Outcome}

theorem forLoop_above (h : Returns (forLoop t id) s out s') :
    s'.Above (keyword (.ident id) (utf8 "for") "" :: s.sink) ∧ out = .next := by
  have hk := ofSink_eq s.sink
  obtain ⟨ts, s₁, hrest, h₁⟩ := h.bind
  obtain ⟨rfl, rfl⟩ := hrest.rest
  obtain ⟨⟨header, f, us⟩, s₂, huntil, h₂⟩ := h₁.bind
  obtain ⟨hs₂, -⟩ := hk.ofNodes.untilBrace _ _ _ _ _ _ rfl huntil
  dsimp only at h₂
  split at h₂
  · exact h₂.throw.elim
  · obtain ⟨body, s₃, hblock, h₃⟩ := h₂.bind
    obtain ⟨hs₃, -⟩ := block_keeps hk _ _ _ _ _ hs₂ hblock
    rw [← hs₃]
    refine emit_keyword (Q := (· = .next)) ?_ h₃
    have hb : Growing (State.Above (keyword (.ident id) (utf8 "for") "" :: s₃.sink)) :=
      growing_above (by simp [keyword, isText])
    exact (emit_grows hb _).bind fun _ _ => (emit_grows hb _).bind fun _ _ => .pure rfl

theorem whileLoop_above (h : Returns (whileLoop t id) s out s') :
    s'.Above (keyword (.ident id) (utf8 "for") "" :: s.sink) ∧ out = .next := by
  have hk := ofSink_eq s.sink
  obtain ⟨ts, s₁, hrest, h₁⟩ := h.bind
  obtain ⟨rfl, rfl⟩ := hrest.rest
  obtain ⟨⟨header, f, us⟩, s₂, huntil, h₂⟩ := h₁.bind
  obtain ⟨hs₂, -⟩ := hk.ofNodes.untilBrace _ _ _ _ _ _ rfl huntil
  dsimp only at h₂
  split at h₂
  · obtain ⟨_, _, hfail, -⟩ := h₂.bind
    exact hfail.fail.elim
  · obtain ⟨body, s₃, hblock, h₃⟩ := h₂.bind
    obtain ⟨hs₃, -⟩ := block_keeps hk _ _ _ _ _ hs₂ hblock
    rw [← hs₃]
    refine emit_keyword (Q := (· = .next)) ?_ h₃
    have hb : Growing (State.Above (keyword (.ident id) (utf8 "for") "" :: s₃.sink)) :=
      growing_above (by simp [keyword, isText])
    exact (emit_grows hb _).bind fun _ _ => (emit_grows hb _).bind fun _ _ => .pure rfl

theorem condition_above (h : Returns (condition t id) s out s') :
    s'.Above (keyword (.ident id) (utf8 "if") "" :: s.sink) ∧ out = .next := by
  have hb : Growing (State.Above (keyword (.ident id) (utf8 "if") "" :: s.sink)) :=
    growing_above (by simp [keyword, isText])
  refine emit_keyword (Q := (· = .next)) ?_ h
  refine (branch_grows hb id).bind fun _ _ => ?_
  refine Keeps.rest.bind fun ts _ => ?_
  exact (elseBranches_grows hb _).bind fun _ _ => .pure rfl

/-- The directives that start with a keyword of the code, and the keyword. -/
def flowKeyword? (name : Text) : Option Text :=
  if name = utf8 "for" ∨ name = utf8 "while" then some (utf8 "for")
  else if name = utf8 "if" then some (utf8 "if")
  else none

/-- A directive with a keyword adds it right after the nodes of the region. -/
theorem flow_above {name kw : Text} (hk : flowKeyword? name = some kw) :
    ∃ d, Registry.standard.directive? name = some d ∧ ∀ t id s out s',
      Returns (d.run t id) s out s' →
        s'.Above (keyword (.ident id) kw "" :: s.sink) ∧ out = .next := by
  unfold flowKeyword? at hk
  split at hk
  · rename_i hname
    cases hk
    rcases hname with rfl | rfl
    · exact ⟨builtin "for" forLoop, rfl, fun _ _ _ _ _ h => forLoop_above h⟩
    · exact ⟨builtin "while" whileLoop, rfl, fun _ _ _ _ _ h => whileLoop_above h⟩
  · split at hk
    · rename_i hname
      cases hk
      cases hname
      exact ⟨builtin "if" condition, rfl, fun _ _ _ _ _ h => condition_above h⟩
    · cases hk

end Directive

/-! ## After the marker -/

/-- The region after the white space before the marker `m`, which is written in markup. -/
def State.beforeMarker (s : State) (m : Token) : State :=
  if s.markup then s.pushText m.pos m.space else s

namespace Registry

/-- Reading what is glued to the marker comes down to reading what follows it. -/
theorem gluedToMarker_returns {r : Registry} {t : Tools} {marker : Option Position} {next : Token}
    {rest : List Token} {s s' : State} {u : Unit} (hrest : s.stream.rest = next :: rest)
    (h : Returns (r.gluedToMarker t marker) s u s') :
    ∃ s₁, s₁.sink = s.sink ∧ Returns (r.afterMarker t marker next) s₁ u s' := by
  obtain ⟨p, s₁, hpeek, h₁⟩ := h.bind
  obtain ⟨hp, rfl⟩ := hpeek.peek
  rw [hrest, List.head?_cons] at hp
  subst hp
  dsimp only at h₁
  split at h₁
  · obtain ⟨_, _, hfail, -⟩ := h₁.bind
    exact hfail.fail.elim
  · obtain ⟨_, s₂, hlast, h₂⟩ := h₁.bind
    exact ⟨s₂, by rw [hlast.modify], h₂⟩

/-- Reading the marker comes down to what follows it, after the white space before it. -/
theorem marker_returns {r : Registry} {t : Tools} {m next : Token} {rest : List Token} {s s' : State}
    {u : Unit} (hrest : s.stream.rest = m :: next :: rest)
    (hword : (s.markup && m.glued && s.sink.head?.any endsWithWord) = false)
    (h : Returns (r.marker t m) s u s') :
    ∃ s₁, s₁.sink = (s.beforeMarker m).sink ∧ Returns (r.afterMarker t m.pos next) s₁ u s' := by
  obtain ⟨_, s₁, hskip, h₁⟩ := h.bind
  cases hskip.modify
  obtain ⟨x, s₂, hget, h₂⟩ := h₁.bind
  obtain ⟨rfl, rfl⟩ := hget.get
  have hskipped : (s.stream.skip 1).rest = next :: rest := by simp [hrest]
  dsimp only at h₂
  rw [hword] at h₂
  simp only [Bool.false_eq_true, if_false] at h₂
  unfold State.beforeMarker
  split at h₂
  · rename_i hm
    obtain ⟨_, s₃, hemit, h₃⟩ := h₂.bind
    have hs₃ := hemit.modify
    rw [State.pushText_stream] at hs₃
    obtain ⟨s₄, hs₄, h₄⟩ := gluedToMarker_returns (by rw [hs₃]; exact hskipped) h₃
    exact ⟨s₄, by rw [if_pos hm, hs₄, hs₃], h₄⟩
  · rename_i hm
    obtain ⟨s₄, hs₄, h₄⟩ := gluedToMarker_returns hskipped h₂
    exact ⟨s₄, by rw [if_neg hm, hs₄], h₄⟩

/-- A loop or condition adds its keyword to the nodes of the region. -/
theorem flow_above {t : Tools} {marker : Option Position} {id : Ident} {kw : Text} {s s' : State}
    {u : Unit} (hk : Directive.flowKeyword? id.name = some kw)
    (h : Returns (standard.afterMarker t marker (.ident id)) s u s') :
    s'.Above (Directive.keyword (.ident id) kw "" :: s.sink) := by
  obtain ⟨d, hd, hrun⟩ := Directive.flow_above hk
  simp only [afterMarker, hd] at h
  obtain ⟨_, s₁, hskip, h₁⟩ := h.bind
  have hs₁ := hskip.modify
  obtain ⟨_, s₂, hnote, h₂⟩ := h₁.bind
  have hs₂ := hnote.modify
  obtain ⟨out, s₃, hdirective, h₃⟩ := h₂.bind
  obtain ⟨habove, rfl⟩ := hrun _ _ _ _ _ hdirective
  obtain ⟨-, rfl⟩ := h₃.pure
  have hsink : s₂.sink = s.sink := by rw [hs₂, hs₁]
  exact hsink ▸ habove

/-- A block that holds anything adds code, possibly after markup, to the nodes of the region. -/
theorem block_above {r : Registry} {t : Tools} {marker : Option Position} {f : Frame}
    {ts : List Token} {s s' : State} {u : Unit} (hf : f.delim = .brace)
    (h : Returns (r.afterMarker t marker (.group f ts)) s u s') :
    s'.sink = s.sink ∨ ∃ lead before h, (∀ n ∈ lead, n.isCode = false) ∧ h.isCode = true ∧
      (lead = [] → before = s.sink.reverse) ∧ Trimmed (s.sink.reverse ++ lead) before ∧
      s'.Above (h :: before.reverse) := by
  simp only [afterMarker, hf, reduceCtorEq, if_false, if_true] at h
  obtain ⟨_, s₁, hskip, h₁⟩ := h.bind
  obtain ⟨nodes, s₂, hregion, h₂⟩ := h₁.bind
  have hs₂ : s₂.sink = s.sink := by
    have hs₁ : s₁.sink = s.sink := by rw [hskip.modify]
    exact (Tools.region_keeps (ofSink_eq s.sink) _ _ _ _ _ _ hs₁ hregion).1
  obtain ⟨_, s₃, hemit, h₃⟩ := h₂.bind
  have hs₃ := hemit.modify
  cases hn : nodes.isEmpty with
  | true =>
    rw [List.isEmpty_iff] at hn
    subst hn
    obtain ⟨-, rfl⟩ := h₃.pure
    exact .inl (by rw [hs₃]; exact hs₂)
  | false =>
    simp only [hn, Bool.not_false, if_true] at h₃
    have hs' := h₃.modify
    -- The first code of the block is at the latest the semicolon that ends it.
    obtain ⟨h, hfind⟩ : ∃ h, (nodes ++ [Node.punct ⟨f.pos, [], ';'⟩]).find? isCode = some h := by
      cases hx : nodes.find? isCode with
      | some h => exact ⟨h, by simp [List.find?_append, hx]⟩
      | none => exact ⟨.punct ⟨f.pos, [], ';'⟩, by simp [List.find?_append, hx, isCode]⟩
    obtain ⟨hc, lead, tail, hsplit, hlead⟩ := List.find?_eq_some_iff_append.mp hfind
    have hall : s' = tail.foldl State.push ((lead.foldl State.push s₂).push h) := by
      rw [hs', hs₃, ← List.foldl_append, hsplit, List.foldl_append, List.foldl_cons]
    have ht := isText_of_isCode hc
    refine .inr ⟨lead, (lead.foldl State.push s₂).sink.reverse, h, by simpa using hlead, hc, ?_, ?_, ?_⟩
    · rintro rfl
      rw [List.foldl_nil, hs₂]
    · rw [← hs₂]
      exact s₂.foldl_push_trimmed lead
    · rw [List.reverse_reverse, hall]
      exact (State.push_above _ ht).foldl_push (by simp [ht]) tail

/-- What follows the marker and adds code: a loop, a condition, or a block. -/
inductive IsConstruct : Token → Prop
  | flow {id : Ident} {kw : Text} : Directive.flowKeyword? id.name = some kw → IsConstruct (.ident id)
  | block {f : Frame} {ts : List Token} : f.delim = .brace → IsConstruct (.group f ts)

/-- Code that was added stays at its place until the region is finished. -/
theorem Finishes.code {below : List Node} {h : Node} {s s' : State} (hfin : Finishes s s')
    (hc : h.isCode = true) (habove : s.Above (h :: below)) :
    ∃ after, s'.sink.reverse = below.reverse ++ h :: after := by
  have ht := isText_of_isCode hc
  obtain ⟨more, hmore⟩ := hfin.grows (growing_above (by simp [ht])) habove
  exact ⟨more.reverse, by simp [hmore]⟩

/-- Where the code of a loop, a condition or a block starts. The construct adds its first code `h`, a
keyword right away or the code of a block possibly after markup, to the nodes `before`, and there it
stays until the region is finished. Wherever the nodes of the region end up, `h` starts a statement
exactly if the code of all that comes before ends with a semicolon, or if `h` stands on a new line; a
block without nodes adds nothing. -/
theorem marker_startsStatement_iff {t : Tools} {m next : Token} {rest : List Token} {s s' : State}
    {u : Unit} (hrest : s.stream.rest = m :: next :: rest) (hnext : IsConstruct next)
    (hword : (s.markup && m.glued && s.sink.head?.any endsWithWord) = false)
    (hret : Returns (standard.marker t m) s u s') :
    (next.isGroup .brace = true ∧ s'.sink = (s.beforeMarker m).sink) ∨
    ∃ lead before h, Trimmed ((s.beforeMarker m).sink.reverse ++ lead) before ∧
      (∀ n ∈ lead, n.isCode = false) ∧ h.isCode = true ∧
      (lead = [] → before = (s.beforeMarker m).sink.reverse) ∧
      (∀ id, next = .ident id → lead = [] ∧ ∃ kw, Directive.flowKeyword? id.name = some kw ∧
        h = .ident ⟨id.pos, [], kw⟩) ∧
      ∀ s'', Finishes s' s'' → ∃ after, s''.sink.reverse = before ++ h :: after ∧
        Code.StartsIffParted before h after := by
  obtain ⟨s₁, hs₁, h₁⟩ := marker_returns hrest hword hret
  cases hnext with
  | flow hk =>
    rename_i id kw
    refine .inr ⟨[], s₁.sink.reverse, .ident ⟨id.pos, [], kw⟩, ?_, by simp, rfl, ?_, ?_, ?_⟩
    · rw [hs₁, List.append_nil]
      exact .refl _
    · intro _
      rw [hs₁]
    · rintro _ ⟨⟩
      exact ⟨rfl, kw, hk, rfl⟩
    · intro s'' hfin
      obtain ⟨after, hafter⟩ := hfin.code rfl (flow_above hk h₁)
      exact ⟨after, hafter, Code.startsIffParted rfl _ _⟩
  | block hf =>
    rcases block_above hf h₁ with h₂ | ⟨lead, before, h, hlead, hc, hexact, htrim, habove⟩
    · exact .inl ⟨by simpa [Token.isGroup] using hf, h₂.trans hs₁⟩
    · rw [hs₁] at hexact htrim
      refine .inr ⟨lead, before, h, htrim, hlead, hc, hexact, ?_, ?_⟩
      · rintro _ ⟨⟩
      · intro s'' hfin
        obtain ⟨after, hafter⟩ := hfin.code hc habove
        rw [List.reverse_reverse] at hafter
        exact ⟨after, hafter, Code.startsIffParted hc _ _⟩

/-- The tools of a loop with one turn left, in a compilation without files. -/
def lastTools : Tools :=
  standard.tools { markdown := .ok } (standard.embedIn { markdown := .ok } 0 [] (utf8 "a")) 1

/-- After `@if a {}`, at the marker of `@if b {}`. -/
def betweenConditions : State :=
  { world := {}, path := utf8 "a", includers := [],
    stream := .ofTokens [.mark none '@', .word (some ⟨1, 10, 9, 10⟩) (utf8 "if"),
      .ident ⟨none, utf8 " ", utf8 "b"⟩, .group ⟨none, utf8 " ", .brace, []⟩ []],
    sink := [.group ⟨none, utf8 " ", .brace, []⟩ [], .ident ⟨none, utf8 " ", utf8 "a"⟩,
      .ident ⟨none, [], utf8 "if"⟩] }

/-- The second of two adjacent conditions starts no statement. -/
theorem marker_startsStatement_iff_conditions : ∃ s s' ts w',
    Returns (standard.marker lastTools (.mark none '@')) betweenConditions () s ∧ Finishes s s' ∧
    Code.ofNodes { markdown := .ok } s'.sink.reverse {} = .ok ts w' ∧
    ∃ pre tok more, ts = pre ++ tok :: more ∧ tok.pos = some ⟨1, 10, 9, 10⟩ ∧
      ¬Token.StartsStatement pre tok := by
  have hok : (match (do standard.marker lastTools (.mark none '@'); goOn lastTools)
        betweenConditions with
      | .ok _ s => WorldM.returned (fun _ => true)
          (Code.ofNodes { markdown := .ok } s.sink.reverse {})
      | .error .. => false) = true := by
    decide +kernel
  split at hok
  · rename_i c s' hrun
    obtain ⟨_, s, hret, hgo⟩ := Returns.bind hrun
    obtain ⟨ts, w', hcode, -⟩ := WorldM.exists_of_returned hok
    have hfin : Finishes s s' := .loop hgo
    refine ⟨s, s', ts, w', hret, hfin, hcode, ?_⟩
    rcases marker_startsStatement_iff rfl (.flow rfl) (by decide +kernel) hret with
      ⟨hgroup, -⟩ | ⟨lead, before, h, -, -, -, hbefore, hkeyword, hstays⟩
    · cases hgroup
    · obtain ⟨hlead, kw, -, rfl⟩ := hkeyword _ rfl
      obtain ⟨after, hafter, hiff⟩ := hstays s' hfin
      rw [hbefore hlead] at hafter hiff
      rw [hafter] at hcode
      obtain ⟨pre, w₁, tok, more, hpre, rfl, hpos, hiff⟩ :=
        hiff _ [] [] _ _ _ (by simpa using hcode)
      refine ⟨_, tok, more, rfl, hpos, ?_⟩
      rw [hiff, not_or]
      cases hpre
      exact ⟨by decide +kernel, by simp [codeSpace, Text.breaksLine]⟩
  · cases hok

end Registry
end Atmark
