import Atmark.Proofs.Directive.Moves
import Atmark.Proofs.Token.Joining

/-! Single declarations. `Directive.IsArgument` is the syntax of what the directives that only declare something have
to read after their names. Before tokens that a line break parts from it such a directive reads all of that and nothing
else, so what it leaves is known from its tokens alone: something is declared, the rest of the line is left out, and
nothing else has changed (`Directive.IsArgument.taken`). -/
namespace Atmark
open ParseM

/-! ## Types somewhere else -/

mutual

/-- The tokens of a type are those of a type wherever they stand. -/
theorem TypeTree.exists_tokens (space : Text) : (type : TypeTree) → {us : List Token} →
    Token.unplacedAll us = Token.unplacedAll (type.tokens space) → ∃ type' : TypeTree, us = type'.tokens space
  | .star pos type, us, h => by
    rw [TypeTree.tokens] at h
    obtain ⟨u, us, rfl, hu, hus⟩ := Token.exists_same h
    obtain ⟨pos', rfl⟩ := hu.punct
    obtain ⟨type', rfl⟩ := type.exists_tokens [] hus
    exact ⟨.star pos' type', rfl⟩
  | .slice pos inside type, us, h => by
    rw [TypeTree.tokens] at h
    obtain ⟨u, us, rfl, hu, hus⟩ := Token.exists_same h
    obtain ⟨pos', cs, rfl, hcs⟩ := hu.group
    obtain rfl := Token.unplacedAll_eq_nil hcs
    obtain ⟨type', rfl⟩ := type.exists_tokens [] hus
    exact ⟨.slice pos' inside type', rfl⟩
  | .named pos name path, us, h => by
    rw [TypeTree.tokens] at h
    obtain ⟨u, us, rfl, hu, hus⟩ := Token.exists_same h
    obtain ⟨pos', rfl⟩ := hu.ident
    obtain ⟨path', rfl⟩ := path.exists_tokens hus
    exact ⟨.named pos' name path', rfl⟩

theorem TypePath.exists_tokens : (path : TypePath) → {us : List Token} →
    Token.unplacedAll us = Token.unplacedAll path.tokens → ∃ path' : TypePath, us = path'.tokens
  | .done, us, h => ⟨.done, Token.unplacedAll_eq_nil h⟩
  | .dot pos namePos name path, us, h => by
    rw [TypePath.tokens] at h
    obtain ⟨u, us, rfl, hu, hus⟩ := Token.exists_same h
    obtain ⟨pos', rfl⟩ := hu.punct
    obtain ⟨v, us, rfl, hv, hrest⟩ := Token.exists_same hus
    obtain ⟨namePos', rfl⟩ := hv.ident
    obtain ⟨path', rfl⟩ := path.exists_tokens hrest
    exact ⟨.dot pos' namePos' name path', rfl⟩
  | .colons pos second namePos name path, us, h => by
    rw [TypePath.tokens] at h
    obtain ⟨u, us, rfl, hu, hus⟩ := Token.exists_same h
    obtain ⟨pos', rfl⟩ := hu.punct
    obtain ⟨v, us, rfl, hv, hvs⟩ := Token.exists_same hus
    obtain ⟨second', rfl⟩ := hv.punct
    obtain ⟨n, us, rfl, hn, hrest⟩ := Token.exists_same hvs
    obtain ⟨namePos', rfl⟩ := hn.ident
    obtain ⟨path', rfl⟩ := path.exists_tokens hrest
    exact ⟨.colons pos' second' namePos' name path', rfl⟩
  | .args pos args, us, h => by
    rw [TypePath.tokens] at h
    obtain ⟨u, us, rfl, hu, hus⟩ := Token.exists_same h
    obtain ⟨pos', rfl⟩ := hu.punct
    obtain ⟨args', rfl⟩ := args.exists_tokens hus
    exact ⟨.args pos' args', rfl⟩

theorem TypeArgs.exists_tokens : (args : TypeArgs) → {us : List Token} →
    Token.unplacedAll us = Token.unplacedAll args.tokens → ∃ args' : TypeArgs, us = args'.tokens
  | .last before type after pos, us, h => by
    rw [TypeArgs.tokens, Token.unplacedAll_append] at h
    obtain ⟨ts, us, rfl, hts, hus⟩ := Token.unplacedAll_eq_append h
    obtain ⟨type', rfl⟩ := type.exists_tokens before hts
    obtain ⟨u, us, rfl, hu, hnil⟩ := Token.exists_same hus
    obtain ⟨pos', rfl⟩ := hu.punct
    obtain rfl := Token.unplacedAll_eq_nil hnil
    exact ⟨.last before type' after pos', rfl⟩
  | .more before type after pos args, us, h => by
    rw [TypeArgs.tokens, Token.unplacedAll_append] at h
    obtain ⟨ts, us, rfl, hts, hus⟩ := Token.unplacedAll_eq_append h
    obtain ⟨type', rfl⟩ := type.exists_tokens before hts
    obtain ⟨u, us, rfl, hu, hrest⟩ := Token.exists_same hus
    obtain ⟨pos', rfl⟩ := hu.punct
    obtain ⟨args', rfl⟩ := args.exists_tokens hrest
    exact ⟨.more before type' after pos' args', rfl⟩

end

namespace Directive

/-! ## What a declaration reads -/

/-- All that a declaration of this name has to read after it. -/
inductive IsArgument : Text → List Token → Prop
  | type (type : TypeTree) {space : Text} : Apart space → IsArgument (utf8 "model") (type.tokens space)
  | string {name : Text} (l : Literal) : name ∈ ["name", "viewstart", "lang"].map utf8 → IsArgument name [.literal l]
  /-- An import has a name or a full stop before its path, or neither, and a semicolon behind it or none. -/
  | path {before after : Option Token} (l : Literal) : (∀ t ∈ before, t.isIdent = true ∨ t.isPunct '.' = true) →
      (∀ t ∈ after, t.isPunct ';' = true ∧ Text.breaksLine t.space = false) →
      IsArgument (utf8 "use") (before.toList ++ .literal l :: after.toList)
  /-- A statement, with the semicolon behind it if there is one. -/
  | statement {ts : List Token} : ts ≠ [] → (statement true ts).2 = ts.length → IsArgument (utf8 "inject") ts
  | block {name : Text} (f : Frame) (cs : List Token) : name ∈ ["functions", "struct", "impl"].map utf8 →
      IsArgument name [.group f cs]

/-- The argument is one wherever it stands. -/
theorem IsArgument.congr {name : Text} {ts us : List Token} (h : IsArgument name ts)
    (hus : Token.unplacedAll us = Token.unplacedAll ts) : IsArgument name us := by
  cases h with
  | type type hspace =>
    obtain ⟨type', rfl⟩ := type.exists_tokens _ hus
    exact .type type' hspace
  | string l hname =>
    obtain ⟨u, us, rfl, hu, hnil⟩ := Token.exists_same hus
    obtain ⟨pos, rfl⟩ := hu.literal
    obtain rfl := Token.unplacedAll_eq_nil hnil
    exact .string _ hname
  | @path before after l hbefore hafter =>
    rw [Token.unplacedAll_append] at hus
    obtain ⟨as, bs, rfl, has, hbs⟩ := Token.unplacedAll_eq_append hus
    obtain ⟨u, cs, rfl, hu, hcs⟩ := Token.exists_same hbs
    obtain ⟨pos, rfl⟩ := hu.literal
    have hoption {o : Option Token} {ts : List Token} (h : Token.unplacedAll ts = Token.unplacedAll o.toList) :
        ∃ o' : Option Token, ts = o'.toList ∧ ∀ t' ∈ o', ∃ t ∈ o, Token.Same t t' := by
      cases o with
      | none => exact ⟨none, Token.unplacedAll_eq_nil h, nofun⟩
      | some t =>
        obtain ⟨t', ts, rfl, ht, hts⟩ := Token.exists_same h
        obtain rfl := Token.unplacedAll_eq_nil hts
        refine ⟨some t', rfl, ?_⟩
        rintro _ ⟨⟩
        exact ⟨t, rfl, ht⟩
    obtain ⟨before', rfl, hsame⟩ := hoption has
    obtain ⟨after', rfl, hsame'⟩ := hoption hcs
    refine .path _ (fun t' ht' => ?_) fun t' ht' => ?_
    · obtain ⟨t, ht, hst⟩ := hsame t' ht'
      rw [hst.isIdent, hst.isPunct]
      exact hbefore t ht
    · obtain ⟨t, ht, hst⟩ := hsame' t' ht'
      rw [hst.isPunct, hst.space]
      exact hafter t ht
  | statement hts hcount =>
    obtain ⟨-, hsame, -⟩ := Seam.statement_along (P := .whole) true (.of_eq hus) fun _ => hts
    refine .statement ?_ ?_
    · rintro rfl
      exact hts (Token.unplacedAll_eq_nil hus.symm)
    · rw [hsame, hcount, Token.length_congr hus]
  | block f cs hname =>
    obtain ⟨u, us, rfl, hu, hnil⟩ := Token.exists_same hus
    obtain ⟨pos, ds, rfl, -⟩ := hu.group
    obtain rfl := Token.unplacedAll_eq_nil hnil
    exact .block _ _ hname

/-- The name of a declaration does not go on with a condition. -/
theorem IsArgument.elseAhead_none {name : Text} {args : List Token} (h : IsArgument name args)
    (pos pos' : Option Position) (after : List Token) :
    elseAhead (.punct ⟨pos, [], '@'⟩ :: .ident ⟨pos', [], name⟩ :: after) = none := by
  have hname : name ≠ utf8 "else" := by
    cases h with
    | type | path | statement => decide
    | string l hname | block f cs hname =>
      simp only [List.map_cons, List.map_nil, List.mem_cons, List.not_mem_nil, or_false] at hname
      rcases hname with rfl | rfl | rfl <;> decide
  cases after with
  | nil => rfl
  | cons => simp [elseAhead, Token.isPunct, Token.isNamed, hname]

end Directive

/-! ## What it leaves -/

/-- From `s` to `u` a declaration with these tokens is read: they are passed over, this is declared, and the rest of
the line is left out. -/
def State.DeclaresOver (s : State) (ts : List Token) (new : Single → Prop) (u : State) : Prop :=
  ∃ v f, s.Passes ts v ∧ Declarations.Adds f new ∧ u = { v with declared := f v.declared, trimLine := true }

namespace Directive
variable {s u : State} {id : Ident} {out : Outcome} {after : List Token}

theorem declared_returns {f : Declarations → Declarations} (h : Returns (do
    declare f
    trimLine
    return Outcome.next) s out u) : out = .next ∧ u = { s with declared := f s.declared, trimLine := true } := by
  obtain ⟨_, _, hdeclare, h₁⟩ := h.bind
  obtain ⟨_, _, htrim, h₂⟩ := h₁.bind
  obtain ⟨rfl, rfl⟩ := h₂.pure
  rw [htrim.modify, hdeclare.modify]
  exact ⟨rfl, rfl⟩

theorem model_taken {type : TypeTree} {space : Text} (hspace : Apart space) (hb : s.world.budget = none)
    (hrest : s.stream.rest = type.tokens space ++ after) (hafter : Token.Parted after)
    (h : Returns (model id) s out u) : out = .next ∧ ∃ new, s.DeclaresOver (type.tokens space) new u := by
  obtain ⟨t, ts, htokens, rfl⟩ := type.tokens_eq_cons space
  have hend : Token.goOnPath after = false := by
    cases after with
    | nil => rfl
    | cons t ts => simp [Token.goOnPath, Token.glued, Text.breaksLine_ne_nil (hafter t rfl)]
  obtain ⟨next, _, hpeek, h₁⟩ := h.bind
  obtain ⟨rfl, rfl⟩ := hpeek.peek
  dsimp only at h₁
  rw [follows_iff.mpr ⟨t, ts ++ after, by rw [hrest, htokens, List.cons_append], hspace⟩] at h₁
  simp only [Bool.not_true, Bool.false_eq_true, if_false] at h₁
  obtain ⟨_, _, hdeclarable, h₂⟩ := h₁.bind
  obtain ⟨-, rfl⟩ := declarable_returns hdeclarable
  obtain ⟨_, _, hget, h₃⟩ := h₂.bind
  obtain ⟨rfl, rfl⟩ := hget.get
  obtain ⟨-, h₄⟩ := h₃.guard
  obtain ⟨_, s₁, hargument, h₅⟩ := h₄.bind
  obtain ⟨-, hs₁⟩ := argument_returns hargument
  obtain ⟨code, s₂, htype, h₆⟩ := h₅.bind
  -- The type is read in one way only.
  obtain ⟨v, htype', hv⟩ := typeName_takes (hs₁.unlimited hb) (hs₁.rest_eq hrest) (.inr hend)
  obtain ⟨-, rfl⟩ := htype'.det htype
  obtain ⟨rfl, rfl⟩ := declared_returns h₆
  exact ⟨rfl, _, _, _, hs₁.trans hv, Declarations.adds_model _ _, rfl⟩

theorem stringArgument_returns {l : Literal} {value : Text} (hrest : s.stream.rest = .literal l :: after)
    (h : Returns (stringArgument id) s value u) : s.Passes [.literal l] u := by
  obtain ⟨tok, s₁, hargument, h₁⟩ := h.bind
  obtain ⟨hhead, hs₁⟩ := argument_returns hargument
  rw [hrest] at hhead
  obtain rfl := Option.some.inj hhead
  obtain ⟨-, h₂⟩ := h₁.guard
  obtain ⟨_, s₂, hskip, h₃⟩ := h₂.bind
  have hs₂ := hskip.skip_passes [_] (hs₁.rest_eq hrest) rfl
  split at h₃
  · obtain ⟨-, rfl⟩ := h₃.pure
    exact hs₁.trans hs₂
  · exact h₃.fail.elim

theorem viewName_taken {l : Literal} (hid : id.pos.isSome = true) (hrest : s.stream.rest = .literal l :: after)
    (h : Returns (viewName id) s out u) : out = .next ∧ ∃ new, s.DeclaresOver [.literal l] new u := by
  obtain ⟨_, _, hdeclarable, h₁⟩ := h.bind
  obtain ⟨-, rfl⟩ := declarable_returns hdeclarable
  obtain ⟨_, _, hget, h₂⟩ := h₁.bind
  obtain ⟨rfl, rfl⟩ := hget.get
  obtain ⟨-, h₃⟩ := h₂.guard
  obtain ⟨value, v, hargument, h₄⟩ := h₃.bind
  obtain ⟨-, h₅⟩ := h₄.guard
  obtain ⟨rfl, rfl⟩ := declared_returns h₅
  exact ⟨rfl, _, v, _, stringArgument_returns hrest hargument, Declarations.adds_name value hid, rfl⟩

theorem parameter_taken {l : Literal} (hrest : s.stream.rest = .literal l :: after)
    (h : Returns (parameter id) s out u) : out = .next ∧ ∃ new, s.DeclaresOver [.literal l] new u := by
  obtain ⟨_, _, hdeclarable, h₁⟩ := h.bind
  obtain ⟨-, rfl⟩ := declarable_returns hdeclarable
  obtain ⟨_, _, hget, h₂⟩ := h₁.bind
  obtain ⟨rfl, rfl⟩ := hget.get
  split at h₂
  · exact h₂.fail.elim
  · obtain ⟨value, v, hargument, h₃⟩ := h₂.bind
    obtain ⟨rfl, rfl⟩ := declared_returns h₃
    exact ⟨rfl, _, v, _, stringArgument_returns hrest hargument, Declarations.adds_parameter _ _ _, rfl⟩

theorem importName_returns {before : Option Token} {l : Literal} {name : Text}
    (hbefore : ∀ t ∈ before, t.isIdent = true ∨ t.isPunct '.' = true)
    (hrest : s.stream.rest = before.toList ++ .literal l :: after) (h : Returns importName s name u) :
    s.Passes before.toList u := by
  have hskips {t : Token} {ts : List Token} {name' : Text} (hrest : s.stream.rest = t :: ts)
      (h : Returns (do skip 1; return name') s name u) : s.Passes [t] u := by
    obtain ⟨_, v, hskip, h₁⟩ := h.bind
    obtain ⟨-, rfl⟩ := h₁.pure
    exact hskip.skip_passes [t] hrest rfl
  obtain ⟨next, _, hpeek, h₁⟩ := h.bind
  obtain ⟨hnext, hv⟩ := hpeek.peek
  rw [hnext, hv, hrest] at h₁
  cases before with
  | none =>
    obtain ⟨-, rfl⟩ := h₁.pure
    exact .refl _
  | some t =>
    rcases hbefore t rfl with hident | hdot
    · cases t with
      | ident n => exact hskips hrest h₁
      | _ => cases hident
    · rw [Token.eq_punct hdot] at hrest h₁ ⊢
      exact hskips hrest h₁

theorem use_taken {before ending : Option Token} {l : Literal}
    (hbefore : ∀ t ∈ before, t.isIdent = true ∨ t.isPunct '.' = true)
    (hending : ∀ t ∈ ending, t.isPunct ';' = true ∧ Text.breaksLine t.space = false)
    (hrest : s.stream.rest = before.toList ++ .literal l :: (ending.toList ++ after)) (hafter : Token.Parted after)
    (h : Returns (use id) s out u) :
    out = .next ∧ ∃ new, s.DeclaresOver (before.toList ++ .literal l :: ending.toList) new u := by
  obtain ⟨_, s₁, hargument, h₁⟩ := h.bind
  obtain ⟨-, hs₁⟩ := argument_returns hargument
  obtain ⟨name, s₂, hname, h₂⟩ := h₁.bind
  have hs₂ := importName_returns hbefore (hs₁.rest_eq hrest) hname
  have hrest₂ := hs₂.rest_eq (hs₁.rest_eq hrest)
  obtain ⟨next, _, hpeek, h₃⟩ := h₂.bind
  obtain ⟨rfl, rfl⟩ := hpeek.peek
  rw [hrest₂] at h₃
  obtain ⟨_, s₃, hskip, h₄⟩ := h₃.bind
  have hs₃ := hskip.skip_passes [_] hrest₂ rfl
  have hrest₃ := hs₃.rest_eq hrest₂
  obtain ⟨-, h₅⟩ := h₄.guard
  split at h₅
  · exact h₅.fail.elim
  rename_i path _
  dsimp only at h₅
  split at h₅
  · obtain ⟨_, _, hfail, -⟩ := h₅.bind
    exact hfail.fail.elim
  obtain ⟨next, _, hpeek, h₆⟩ := h₅.bind
  obtain ⟨rfl, rfl⟩ := hpeek.peek
  rw [hrest₃] at h₆
  have hpath := hs₁.trans (hs₂.trans hs₃)
  cases ending with
  | none =>
    have hno : (after.head?.any fun t => t.isPunct ';' && !Text.breaksLine t.space) = false := by
      cases after with
      | nil => rfl
      | cons t ts => simp [hafter t rfl]
    change Returns
      (if (after.head?.any fun t => t.isPunct ';' && !Text.breaksLine t.space) = true then _ else _) _ _ _ at h₆
    rw [hno] at h₆
    obtain ⟨rfl, rfl⟩ := declared_returns h₆
    exact ⟨rfl, _, _, _, hpath, Declarations.adds_import _, rfl⟩
  | some t =>
    obtain ⟨hsemicolon, hline⟩ := hending t rfl
    have hyes : ((t :: after).head?.any fun t => t.isPunct ';' && !Text.breaksLine t.space) = true := by
      simp [hsemicolon, hline]
    change Returns (if ((t :: after).head?.any fun t => t.isPunct ';' && !Text.breaksLine t.space) = true then _ else _)
      _ _ _ at h₆
    rw [hyes] at h₆
    obtain ⟨_, s₄, hskip', h₇⟩ := h₆.bind
    have hs₄ := hskip'.skip_passes [t] hrest₃ rfl
    obtain ⟨rfl, rfl⟩ := declared_returns h₇
    have hall := hpath.trans hs₄
    rw [List.nil_append, List.append_assoc] at hall
    exact ⟨rfl, _, _, _, hall, Declarations.adds_import _, rfl⟩

/-- A statement is read up to the line break behind it. -/
theorem statement_parted {isFirst : Bool} {ts : List Token} (hts : isFirst = true → ts ≠ [])
    (hcount : (statement isFirst ts).2 = ts.length) (hafter : Token.Parted after) :
    (statement isFirst (ts ++ after)).2 = ts.length := by
  induction ts generalizing isFirst with
  | nil =>
    cases isFirst with
    | true => exact (hts rfl rfl).elim
    | false =>
      cases after with
      | nil => rfl
      | cons t ts => simp [statement, hafter t rfl]
  | cons t ts ih =>
    rw [List.cons_append, statement]
    rw [statement] at hcount
    split
    · rename_i hbreak
      rw [if_pos hbreak] at hcount
      cases hcount
    rename_i hbreak
    rw [if_neg hbreak] at hcount
    split
    · rename_i hsemicolon
      rwa [if_pos hsemicolon] at hcount
    · rename_i hsemicolon
      rw [if_neg hsemicolon] at hcount
      exact congrArg (· + 1) (ih (by simp) (Nat.succ.inj hcount))

theorem inject_taken {ts : List Token} (hts : ts ≠ []) (hcount : (statement true ts).2 = ts.length)
    (hrest : s.stream.rest = ts ++ after) (hafter : Token.Parted after) (h : Returns (inject id) s out u) :
    out = .next ∧ ∃ new, s.DeclaresOver ts new u := by
  obtain ⟨_, s₁, hargument, h₁⟩ := h.bind
  obtain ⟨-, hs₁⟩ := argument_returns hargument
  have hrest₁ : s₁.stream.rest = ts ++ after := hs₁.rest_eq hrest
  obtain ⟨_, _, hlook, h₂⟩ := h₁.bind
  obtain ⟨rfl, rfl⟩ := hlook.rest
  dsimp only at h₂
  obtain ⟨_, s₂, hskip, h₃⟩ := h₂.bind
  have hs₂ := hskip.skip_passes ts hrest₁ (by rw [hrest₁, statement_parted (fun _ => hts) hcount hafter])
  obtain ⟨-, h₄⟩ := h₃.guard
  obtain ⟨rfl, rfl⟩ := declared_returns h₄
  exact ⟨rfl, _, _, _, hs₁.trans hs₂, Declarations.adds_inject _, rfl⟩

theorem codeSection_taken {f : Frame} {cs : List Token} (hrest : s.stream.rest = .group f cs :: after)
    (h : Returns (codeSection id) s out u) : out = .next ∧ ∃ new, s.DeclaresOver [.group f cs] new u := by
  obtain ⟨_, _, hdeclarable, h₁⟩ := h.bind
  obtain ⟨-, rfl⟩ := declarable_returns hdeclarable
  obtain ⟨_, s₁, hargument, h₂⟩ := h₁.bind
  obtain ⟨-, hs₁⟩ := argument_returns hargument
  have hrest₁ : s₁.stream.rest = .group f cs :: after := hs₁.rest_eq hrest
  obtain ⟨_, _, hget, h₃⟩ := h₂.bind
  obtain ⟨rfl, rfl⟩ := hget.get
  split at h₃
  · exact h₃.unexpected.elim
  · rename_i g ds _
    obtain ⟨_, s₂, hskip, h₄⟩ := h₃.bind
    have hs₂ := hskip.skip_passes [_] hrest₁ rfl
    obtain ⟨rfl, rfl⟩ := declared_returns h₄
    have hadds := Declarations.adds_section id.name fun d => joinBlocks ((d.sectionOf? id.name).getD []) g ds
    exact ⟨rfl, _, _, _, hs₁.trans hs₂, hadds, rfl⟩

/-- Before a line break a declaration reads its argument, if it comes to an end at all, and leaves nothing but what it
declares. -/
theorem IsArgument.taken {name : Text} {ts : List Token} (h : IsArgument name ts) :
    ∃ d, Registry.standard.directive? name = some d ∧
      ∀ (t : Tools) (id : Ident) (s u : State) (out : Outcome) (after : List Token), id.pos.isSome = true →
        s.world.budget = none → s.stream.rest = ts ++ after → Token.Parted after → Returns (d.run t id) s out u →
        out = .next ∧ ∃ new, s.DeclaresOver ts new u := by
  cases h with
  | type type hspace =>
    exact ⟨builtin "model" fun _ => model, rfl, fun _ _ _ _ _ _ _ hb hrest hafter h =>
      model_taken hspace hb hrest hafter h⟩
  | string l hname =>
    simp only [List.map_cons, List.map_nil, List.mem_cons, List.not_mem_nil, or_false] at hname
    rcases hname with rfl | rfl | rfl
    · exact ⟨builtin "name" fun _ => viewName, rfl, fun _ _ _ _ _ _ hid _ hrest _ h => viewName_taken hid hrest h⟩
    · exact ⟨builtin "viewstart" fun _ => parameter, rfl, fun _ _ _ _ _ _ _ _ hrest _ h => parameter_taken hrest h⟩
    · exact ⟨builtin "lang" fun _ => parameter, rfl, fun _ _ _ _ _ _ _ _ hrest _ h => parameter_taken hrest h⟩
  | path l hbefore hending =>
    refine ⟨builtin "use" fun _ => use, rfl, fun _ _ _ _ _ _ _ _ hrest hafter h => ?_⟩
    rw [List.append_assoc] at hrest
    exact use_taken hbefore hending hrest hafter h
  | statement hts hcount =>
    exact ⟨builtin "inject" fun _ => inject, rfl, fun _ _ _ _ _ _ _ _ hrest hafter h =>
      inject_taken hts hcount hrest hafter h⟩
  | block f cs hname =>
    simp only [List.map_cons, List.map_nil, List.mem_cons, List.not_mem_nil, or_false] at hname
    rcases hname with rfl | rfl | rfl
    · exact ⟨builtin "functions" fun _ => codeSection, rfl, fun _ _ _ _ _ _ _ _ hrest _ h =>
        codeSection_taken hrest h⟩
    · exact ⟨builtin "struct" fun _ => codeSection, rfl, fun _ _ _ _ _ _ _ _ hrest _ h => codeSection_taken hrest h⟩
    · exact ⟨builtin "impl" fun _ => codeSection, rfl, fun _ _ _ _ _ _ _ _ hrest _ h => codeSection_taken hrest h⟩

end Directive
end Atmark
