import Atmark.Directive.Declaration
import Atmark.Proofs.Parse.TypeName

/-! Where a declaration of the model ends. It takes a type and stops at the first tokens that would not go on
with a path. White space need not part them from the type: of `map[string]int` it takes `map`, and what is left
is read as markup (`model_takes_iff`). -/
namespace Atmark.Directive
open ParseM

variable {s u : State} {id : Ident}

/-- White space on the same line. -/
def Apart (space : Text) : Prop := space ≠ [] ∧ Text.breaksLine space = false

theorem follows_iff {ts : List Token} : (ts.head?.any fun t => !t.glued && !Text.breaksLine t.space) = true ↔
    ∃ t us, ts = t :: us ∧ Apart t.space := by
  cases ts <;> simp [Apart, Token.glued]

theorem declarable_returns (h : Returns (declarable id) s () u) : s.includers = [] ∧ u = s := by
  obtain ⟨_, _, hget, h₁⟩ := h.bind
  obtain ⟨rfl, rfl⟩ := hget.get
  split at h₁
  · exact h₁.fail.elim
  · rename_i hincluders
    exact ⟨by simpa using hincluders, h₁.pure.2⟩

/-- The token behind a directive is looked at, not taken. -/
theorem argument_returns {expecting : String} {t : Token} (h : Returns (argument id expecting) s t u) :
    s.stream.rest.head? = some t ∧ s.Passes [] u := by
  obtain ⟨next, _, hpeek, h₁⟩ := h.bind
  obtain ⟨rfl, rfl⟩ := hpeek.peek
  split at h₁
  · exact h₁.fail.elim
  · rename_i tok hhead
    obtain ⟨-, h₂⟩ := h₁.guard
    obtain ⟨_, _, hlast, h₃⟩ := h₂.bind
    obtain ⟨rfl, rfl⟩ := h₃.pure
    exact ⟨hhead, hlast.setLast_passes⟩

/-- A declaration that came to an end has taken a type, with nothing behind it that would go on with it. -/
theorem model_spells (h : Returns (model id) s .next u) :
    s.includers = [] ∧ s.declared.model = none ∧ ∃ (type : TypeTree) (space : Text), Apart space ∧
      s.stream.rest = type.tokens space ++ u.stream.rest ∧
      (type.isGeneric = true ∨ Token.goOnPath u.stream.rest = false) ∧
      u.declared = { s.declared with model := some type.code, modelPos := id.pos } := by
  obtain ⟨next, _, hpeek, h₁⟩ := h.bind
  obtain ⟨rfl, rfl⟩ := hpeek.peek
  dsimp only at h₁
  split at h₁
  · obtain ⟨hnext, -⟩ := h₁.pure
    cases hnext
  rename_i hfollows
  obtain ⟨t, ts, hrest, hapart⟩ := follows_iff.mp (by simpa using hfollows)
  obtain ⟨_, _, hdeclarable, h₂⟩ := h₁.bind
  obtain ⟨hincluders, rfl⟩ := declarable_returns hdeclarable
  obtain ⟨_, _, hget, h₃⟩ := h₂.bind
  obtain ⟨rfl, rfl⟩ := hget.get
  obtain ⟨hmodel, h₄⟩ := h₃.guard
  obtain ⟨_, s₁, hargument, h₅⟩ := h₄.bind
  obtain ⟨-, hpasses⟩ := argument_returns hargument
  obtain ⟨code, s₂, htype, h₆⟩ := h₅.bind
  obtain ⟨type, space, hpasses', rfl, hend⟩ := typeName_spells htype
  obtain ⟨_, s₃, hdeclare, h₇⟩ := h₆.bind
  obtain ⟨_, s₄, htrim, h₈⟩ := h₇.bind
  obtain ⟨-, rfl⟩ := h₈.pure
  have htaken := hpasses.trans hpasses'
  obtain ⟨_, _, hframe⟩ := htaken.frame
  have hspace : t.space = space := by
    obtain ⟨t', ts', htokens, hspace⟩ := type.tokens_eq_cons space
    have hhead := htaken.rest
    rw [hrest, List.nil_append, htokens] at hhead
    rw [(List.cons.inj hhead).1, hspace]
  have hu : u.stream = s₂.stream ∧
      u.declared = { s₂.declared with model := some type.code, modelPos := id.pos } := by
    rw [htrim.modify, hdeclare.modify]
    exact ⟨rfl, rfl⟩
  refine ⟨hincluders, by simpa using hmodel, type, space, hspace ▸ hapart, ?_, ?_, ?_⟩
  · rw [hu.1]
    exact htaken.rest
  · rwa [hu.1]
  · rw [hu.2, hframe]

/-- A type behind the directive is declared. -/
theorem model_takes {type : TypeTree} {space : Text} {after : List Token} (hb : s.world.budget = none)
    (hincluders : s.includers = []) (hmodel : s.declared.model = none) (hapart : Apart space)
    (hrest : s.stream.rest = type.tokens space ++ after)
    (hend : type.isGeneric = true ∨ Token.goOnPath after = false) :
    ∃ u, Returns (model id) s .next u ∧ u.stream.rest = after ∧ u.declared.model = some type.code := by
  obtain ⟨t, ts, htokens, rfl⟩ := type.tokens_eq_cons space
  have hhead : s.stream.rest.head? = some t := by rw [hrest, htokens]; rfl
  have hglued : t.glued = false := by simpa [Token.glued] using hapart.1
  obtain ⟨v, hlast, hv⟩ := setLast_passes s t.pos
  obtain ⟨w, htype, hw⟩ := typeName_takes (hv.unlimited hb) (hv.rest_eq hrest) hend
  refine ⟨{ w with declared := { w.declared with model := some type.code, modelPos := id.pos }, trimLine := true },
    ?_, (hv.trans hw).rest_eq hrest, rfl⟩
  refine Returns.andThen (a := some t) (t := s) (by rw [← hhead]; rfl) ?_
  simp only [Option.any_some, hglued, hapart.2, Bool.not_false, Bool.and_self, Bool.not_true,
    Bool.false_eq_true, if_false]
  refine Returns.andThen (a := ()) (t := s) ?_ ?_
  · refine Returns.andThen (a := s) (t := s) rfl ?_
    rw [hincluders]
    rfl
  refine Returns.andThen (a := s) (t := s) rfl ?_
  rw [hmodel]
  refine Returns.andThen (a := t) (t := v) ?_ (htype.andThen rfl)
  refine Returns.andThen (a := some t) (t := s) (by rw [← hhead]; rfl) ?_
  simp only [hglued, Bool.false_eq_true, if_false]
  exact hlast.andThen rfl

/-- A declaration of the model succeeds exactly before a type that white space parts from the directive on its
line, once and not in an included template. What it leaves is what would not go on with the type: a full stop
without an identifier, or any token that is no colon and no `<`, and behind arguments anything at all. The
token need not have white space before it. -/
theorem model_takes_iff (id : Ident) (hb : s.world.budget = none) (code after : List Token) :
    (∃ u, Returns (model id) s .next u ∧ u.stream.rest = after ∧ u.declared.model = some code) ↔
      s.includers = [] ∧ s.declared.model = none ∧ ∃ (type : TypeTree) (space : Text), Apart space ∧
        s.stream.rest = type.tokens space ++ after ∧ code = type.code ∧
        (type.isGeneric = true ∨ Token.goOnPath after = false) := by
  constructor
  · rintro ⟨u, h, rfl, hcode⟩
    obtain ⟨hincluders, hmodel, type, space, hapart, hrest, hend, hdeclared⟩ := model_spells h
    rw [hdeclared] at hcode
    exact ⟨hincluders, hmodel, type, space, hapart, hrest, (Option.some.inj hcode).symm, hend⟩
  · rintro ⟨hincluders, hmodel, type, space, hapart, hrest, rfl, hend⟩
    exact model_takes hb hincluders hmodel hapart hrest hend

/-- The tokens of ` map[string]int` behind the directive. -/
def mapType : State :=
  { world := {}, path := [], includers := [],
    stream := .ofTokens [.ident ⟨none, utf8 " ", utf8 "map"⟩,
      .group ⟨none, [], .bracket, []⟩ [.ident ⟨none, [], utf8 "string"⟩], .ident ⟨none, [], utf8 "int"⟩] }

/-- The declaration takes the first word of a type that the syntax does not have, and leaves the rest. -/
theorem model_takes_iff_map : mapType.world.budget = none ∧
    ∃ u, Returns (model ⟨none, [], utf8 "model"⟩) mapType .next u ∧
      u.stream.rest = mapType.stream.rest.tail ∧ u.declared.model = some [.word none (utf8 "map")] :=
  ⟨rfl, (model_takes_iff _ rfl _ _).mpr
    ⟨rfl, rfl, .named none (utf8 "map") .done, utf8 " ", ⟨by decide, by decide⟩, rfl, rfl, .inr rfl⟩⟩

end Atmark.Directive
