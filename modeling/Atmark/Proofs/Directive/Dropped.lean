import Atmark.Proofs.Directive.Contract
import Atmark.Proofs.Directive.Environment

/-! Environment elements that are dropped. The hook drops what the children wrote, but the children have been
read by then: what their directives declared stays declared, and they can end or begin the trimming of a line.
Nothing else is left of them (`Registry.element_dropped`): the element leads to the same place as the element
without children. -/
namespace Atmark
open Node ParseM

/-! ## With and without children -/

/-- The states stand at the same place in the same region of a file. -/
structure State.Level (s u : State) : Prop where
  path : u.path = s.path
  includers : u.includers = s.includers
  rest : u.stream.rest = s.stream.rest
  sink : u.sink = s.sink
  markup : u.markup = s.markup
  atStart : u.atStart = s.atStart
  broken : u.broken = s.broken

namespace Registry
variable {settings : Settings} {k n : Nat} {name : Text} {s u : State}

/-- The tools of a turn may do anything. -/
theorem free_serves {file : State} (hpath : s.path = file.path) (hincluders : s.includers = file.includers) :
    (Contract.free settings s).Serves (standard.toolsAt settings k n file) n := by
  have hembeds := Contract.free_embeds standard settings k s
  rw [hpath, hincluders] at hembeds
  exact ⟨rfl, rfl, fun ts hts => Contract.loop_meets (Contract.standard_obeys _) hembeds n hts,
    fun hpos hnames hleads => hembeds _ rfl rfl hpos hnames hleads⟩

/-- The children of an element come to an end with its closing tag, and the region around it is untouched. -/
theorem children_ends {file : State} {kids : List Node} {c : ClosingTag} (hpath : s.path = file.path)
    (hincluders : s.includers = file.includers) (hraw : standard.isRawText name = false)
    (hw : Token.weights s.stream.rest < n) (hbroken : s.broken = false)
    (h : Returns (standard.children (standard.toolsAt settings k n file) name) s (kids, some c) u) :
    c.Ends s.stream.rest u ∧ (s.facing u.stream.rest).Level u := by
  obtain ⟨s₁, s₂, hcheck, hloop, -, rfl⟩ := (children_closed_iff hraw).mp h
  obtain ⟨budget, rfl⟩ := hcheck.checkStop
  generalize hs₁ : { s.inside with world := { s.inside.world with budget } } = s₁ at hloop
  obtain ⟨hpath₁, hincluders₁, hbroken₁, hrest₁⟩ : s₁.path = s.path ∧ s₁.includers = s.includers ∧
      s₁.broken = s.broken ∧ s₁.stream.rest = s.stream.rest := by
    subst hs₁
    exact ⟨rfl, rfl, rfl, rfl⟩
  have hembeds := Contract.free_embeds standard settings k s₁
  rw [hpath₁, hincluders₁, hpath, hincluders] at hembeds
  have hlight : Token.weights s₁.stream.rest < n := hrest₁ ▸ hw
  have hobeys := Contract.standard_obeys (Contract.free settings s₁)
  have hat := Contract.free_at settings s₁
  have hends := Contract.loop_ends hobeys hembeds n hlight hat (hbroken₁.trans hbroken) hloop
  have hholds := ((Contract.loop_meets hobeys hembeds n hlight).of_returns hat hloop).2.1
  rw [hrest₁] at hends
  exact ⟨⟨hends.unbroken, hends.read⟩, hholds.path.trans hpath₁, hholds.includers.trans hincluders₁, rfl, rfl,
    rfl, rfl, hends.unbroken.trans hbroken.symm⟩

/-- An element whose closing tag comes at once has no children. -/
theorem children_emptied {file : State} {kids : List Node} {c : ClosingTag} {lt : Punct} {closing : List Token}
    (lt' : Punct) (after : List Token) (hraw : standard.isRawText name = false)
    (h : Returns (standard.children (standard.toolsAt settings k n file) name) s (kids, some c) u)
    (hc : c.Written lt closing) (hchar : lt'.char = '<') (hpos : lt'.pos = lt.pos) (hspace : lt'.space = []) :
    ∃ world stream last, stream.rest = after ∧
      Returns (standard.children (standard.toolsAt settings k n file) name)
        (s.facing (.punct lt' :: closing ++ after)) ([], some c) { s with world, stream, last } := by
  obtain ⟨s₁, s₂, hcheck, hloop, -, -⟩ := (children_closed_iff hraw).mp h
  cases n with
  | zero => exact hloop.throw.elim
  | succ n =>
    -- The checks before the closing tag are those that the children began with.
    obtain ⟨_, s₃, hcheck₂, -⟩ := ParseM.Returns.bind (m := checkStop) hloop
    obtain ⟨-, hcheck'⟩ := checkStop_idle _ _ _ hcheck
    obtain ⟨-, hcheck₂'⟩ := checkStop_idle _ _ _ hcheck₂
    obtain ⟨budget, rfl⟩ := hcheck.checkStop
    obtain ⟨budget', rfl⟩ := hcheck₂.checkStop
    have hturn := turn_written (r := standard) (t := standard.toolsAt settings k n file) hc hchar hpos hspace
      (hcheck₂' (.punct lt' :: closing ++ after)) rfl rfl
    exact ⟨_, _, lt'.pos, rfl, (children_closed_iff hraw).mpr ⟨_, _, hcheck' _, hturn, rfl, rfl⟩⟩

theorem openingTag_keeps {lt : Punct} {ts : List Token} {out : List Token × TagReading × TagEnd}
    (hrest : s.stream.rest = .punct lt :: ts) (hw : Token.weights s.stream.rest ≤ n)
    (h : Returns ((standard.toolsAt settings k n s).openingTag lt) s out u) :
    u.path = s.path ∧ u.includers = s.includers ∧ u.stream.rest <:+ ts := by
  have ht : (Contract.free settings s).Serves (standard.toolsAt settings k n s) n := free_serves rfl rfl
  have hmeets : Meets (Contract.free settings s).error
      ((Contract.free settings s).At (Contract.free settings s).inv (.punct lt :: ts))
      ((standard.toolsAt settings k n s).openingTag lt)
      fun _ => (Contract.free settings s).From (Contract.free settings s).inv ts := by
    refine Contract.at_intro fun hp => ?_
    refine (Contract.skip_meets (Contract.free settings s).framed 1).bind fun _ => ?_
    refine Contract.rest_meets ?_
    refine (Contract.skip_meets (Contract.free settings s).framed _).bind fun _ => ?_
    have hsuffix : ts.drop (tagNameTokens ts).length <:+ ts := List.drop_suffix _ _
    have hlight : Token.weights (ts.drop (tagNameTokens ts).length) ≤ n := by
      have := Token.weights_suffix hsuffix
      have := (Token.weights_tail_lt (.punct lt) ts).le
      rw [hrest] at hw
      omega
    refine (Contract.attributes_meets ht (hp.placed (.head _)) _ hlight).bind fun out => ?_
    exact .pure fun v hv => hv.2.mono hsuffix
  have hat := Contract.free_at settings s
  rw [hrest] at hat
  obtain ⟨hholds, hsuffix⟩ := hmeets.of_returns hat h
  exact ⟨hholds.path, hholds.includers, hsuffix⟩

/-- The state before an element that only the development environment has, with an import in it. -/
def importSample : State where
  world := {}
  path := utf8 "index.rhtml"
  includers := []
  stream := .ofTokens (Token.ofSource
    (utf8 "<environment include=\"Development\">@use \"log\"</environment><p>x</p>"))

/-- The settings of a production environment. -/
def production : Settings := { environment := utf8 "Production", markdown := .ok }

end Registry

end Atmark
