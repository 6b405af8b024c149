import Atmark.Proofs.Code.Generated
import Atmark.Proofs.Directive.Argument
import Atmark.Proofs.Parse.Broken
import Atmark.Proofs.Parse.Requoted

/-! Declarations on lines of their own. The loop comes to such a line as it comes to the end of what stands before it
(`Seam.loop_reaches`); one turn reads the declaration and asks for the rest of the line to be left out
(`Registry.turn_declares`); and behind the line everything is read as it would be without the line
(`Seam.Behind.loop_ends`). The line break is only left out of a text that joins another one, so this is so where the
text before the line is still there to be joined, or where no text comes right behind the line
(`Template.parse_declaredLine`). -/
namespace Atmark
open Node ParseM

/-! ## Text behind a line -/

namespace State

/-- A line without anything on it is left out as a whole. -/
theorem trimText_line {blank nl : Text} (hblank : ∀ b ∈ blank, Text.isIndent b = true)
    (hnl : nl = [0x0A] ∨ nl = [0x0D, 0x0A]) (y : Text) : trimText (blank ++ nl ++ y) = (y, false) := by
  unfold trimText
  rw [List.append_assoc, List.dropWhile_append_of_pos hblank]
  rcases hnl with rfl | rfl <;> rfl

/-- Where a text ends with a line break, no text behind it is trimmed. -/
theorem trimText_append {w : Text} (hw : w.getLast? = some 0x0A) (y : Text) :
    trimText (w ++ y) = ((trimText w).1 ++ y, false) := by
  obtain ⟨v, rfl⟩ := List.getLast?_eq_some_iff.mp hw
  unfold trimText
  simp only [List.append_assoc, List.dropWhile_append]
  generalize v.dropWhile Text.isIndent = r
  cases r with
  | nil => rfl
  | cons b r =>
    by_cases hfeed : b = 0x0A
    · subst hfeed
      simp
    by_cases hreturn : b = 0x0D
    · subst hreturn
      cases r with
      | nil => rfl
      | cons c r =>
        by_cases hfeed : c = 0x0A
        · subst hfeed
          simp
        · simp [hfeed]
    · simp [hfeed, hreturn]

theorem trimmed_append {s : State} {w : Text} (hw : w.getLast? = some 0x0A ∨ s.trimLine = false) (y : Text) :
    s.trimmed (w ++ y) = ((s.trimmed w).1 ++ y, false) := by
  unfold trimmed
  by_cases ht : s.trimLine = true
  · rw [if_pos ht, if_pos ht]
    exact trimText_append (hw.resolve_right (by simp [ht])) y
  · rw [if_neg ht, if_neg ht]

/-- A text goes behind a line that is left out as it goes behind the white space before that line, if that has been
written as the end of a text or is the same. -/
theorem pushText_behind {s : State} {line w y : Text} (hw : w.getLast? = some 0x0A ∨ s.trimLine = false)
    (hline : trimText (line ++ y) = (y, false)) {p p' q : Option Position}
    (h : (s.pushText p w).sink.head?.any isText = true ∨ y = [] ∨ w = line) :
    placelessAll (s.pushText p' (w ++ y)).sink =
        placelessAll (({ s.pushText p w with trimLine := true } : State).pushText q (line ++ y)).sink ∧
      (s.pushText p' (w ++ y)).trimLine =
        (({ s.pushText p w with trimLine := true } : State).pushText q (line ++ y)).trimLine := by
  have htrimmed : ({ s.pushText p w with trimLine := true } : State).trimmed (line ++ y) = (y, false) := hline
  rw [pushText_eq _ q, pushText_eq _ p', htrimmed, trimmed_append hw]
  dsimp only
  by_cases hz : (s.trimmed w).1 = []
  · -- Nothing of the white space is written.
    have hsink : (s.pushText p w).sink = s.sink := by
      rw [pushText_eq, hz]
      rfl
    rw [hsink] at h ⊢
    rw [hz, List.nil_append]
    cases y with
    | nil => exact ⟨rfl, rfl⟩
    | cons b y =>
      cases hs : s.sink with
      | nil =>
        obtain rfl : w = line := by simpa [hs] using h
        exact ⟨rfl, rfl⟩
      | cons n ns =>
        cases n with
        | text => exact ⟨rfl, rfl⟩
        | _ =>
          obtain rfl : w = line := by simpa [hs, isText] using h
          exact ⟨rfl, rfl⟩
  · have hempty {x : Text} (hx : x ≠ []) : ¬x.isEmpty = true := by simpa using hx
    have hall : (s.trimmed w).1 ++ y ≠ [] := by simp [hz]
    rw [pushText_eq s p, if_neg (hempty hz), if_neg (hempty hall)]
    cases hs : s.sink with
    | nil => cases y <;> simp [placelessAll, placeless]
    | cons n ns => cases n <;> cases y <;> simp [placelessAll, placeless]

end State

/-! ## Tokens of sources one behind the other -/

namespace Token

/-- Behind white space that ends with a line break tokens are parted from what comes before. -/
theorem parted_of_after {w : Text} {ts us : List Token} (hw : w.getLast? = some 0x0A)
    (h : unplacedAll ts = unplacedAll (after w us)) : Parted ts := by
  intro t ht
  cases us with
  | nil =>
    rw [unplacedAll_eq_nil h] at ht
    cases ht
  | cons u us =>
    obtain ⟨t', ts, rfl, hsame, -⟩ := exists_same h
    obtain rfl := Option.some.inj ht
    rw [hsame.space, space_withSpace, Text.breaksLine, List.any_eq_true]
    exact ⟨0x0A, List.mem_append_left _ (List.mem_of_getLast? hw), rfl⟩

/-- Whether tokens go on with a condition does not depend on where they stand. -/
theorem elseAhead_after {us : List Token} (h : Directive.elseAhead us = none) (w : Text) :
    Directive.elseAhead (unplacedAll (after w us)) = none := by
  match us with
  | [] | [_] => rfl
  | [t, u] => simpa [Directive.elseAhead, after, unplacedAll] using h
  | t :: u :: v :: us =>
    simp only [Directive.elseAhead, after, unplacedAll, isPunct_unplaced, isNamed_unplaced, glued_unplaced,
      isPunct_withSpace, isNamed_withSpace] at h ⊢
    by_cases hat : t.isPunct '@' = true
    · rw [if_pos hat] at h ⊢
      rw [if_neg fun helse => by rw [if_pos helse] at h; cases h]
    · rw [if_neg hat] at h ⊢
      rw [if_neg fun helse => by rw [if_pos helse] at h; cases h]

theorem elseSplits_after {ts us : List Token} (h : ¬Seam.ElseSplits ts us) (w : Text) :
    ¬Seam.ElseSplits ts (unplacedAll (after w us)) := by
  refine fun hsplits => h ⟨hsplits.1, ?_⟩
  have hany := hsplits.2
  cases us with
  | nil => cases hany
  | cons u us => cases u <;> exact hany

end Token

/-! ## Behind what comes first -/

/-- The state but for the tokens to come. -/
def State.unread (s : State) : State := { s with stream := .ofTokens [] }

namespace Seam
variable {P : Seam} {r : Registry} (hr : r.Moves) {settings : Settings} {embed : Text → Text → ParseM Fragment}
  {s s' s'' : State}

/-- Two runs that are where a third one is are at the same place. -/
theorem Alike.euclid (h : whole.Alike s s') (h' : whole.Alike s s'') : whole.Alike s' s'' where
  stream := .of_eq (h'.stream.eq.trans h.stream.eq.symm)
  sink := by
    have hsink : ∀ {u v : State}, whole.Alike u v → placelessAll v.sink = placelessAll u.sink :=
      fun h => (level_afresh (P := whole)).mp h.sink
    exact (level_afresh (P := whole)).mpr ((hsink h').trans (hsink h).symm)
  atStart := h'.atStart.trans h.atStart.symm
  markup := h'.markup.trans h.markup.symm
  unbroken := ⟨h.unbroken.2, h'.unbroken.2⟩
  trimLine := h'.trimLine.trans h.trimLine.symm
  path := h'.path.trans h.path.symm
  includers := h'.includers.trans h.includers.symm
  budget := ⟨h.budget.2, h'.budget.2⟩
  cache := h'.cache.trans h.cache.symm
  declared x := by
    have hs := (h.declared x).symm.trans (h'.declared x)
    simpa [whole] using hs
  placed := ⟨h.placed.2, h'.placed.2⟩
  ends hne := (hne rfl).elim

/-- How a loop ends that comes to these tokens in a state that is `u` but for them. -/
inductive Reaches (r : Registry) (settings : Settings) (embed : Text → Text → ParseM Fragment) (xs : List Token)
    (u : State) : EStateM.Result Error State (Option ClosingTag) → Prop
  /-- The loop does not have turns enough. -/
  | short {v : State} : Reaches r settings embed xs u (.error .exhausted v)
  | ended {v : State} : xs = [] → whole.Alike u.unread v.unread → Reaches r settings embed xs u (.ok none v)
  | going {n : Nat} {v : State} : Token.unplacedAll v.stream.rest = Token.unplacedAll xs →
      Token.AllPlaced v.stream.rest → v.markup = true → whole.Alike u.unread v.unread →
      Reaches r settings embed xs u (r.loop settings embed n v)

theorem loop_nil {n : Nat} {c : Option ClosingTag} {u : State} (hb : s.world.budget = none) (hrest : s.stream.rest = [])
    (h : Returns (r.loop settings embed n) s c u) : c = none ∧ u = s := by
  cases n with
  | zero => cases h
  | succ n =>
    have hnil : r.loop settings embed (n + 1) s = .ok none s := Registry.turn_nil r _ hb hrest
    obtain ⟨rfl, rfl⟩ := EStateM.Result.ok.inj (hnil.symm.trans h)
    exact ⟨rfl, rfl⟩

include hr in
/-- Tokens that are read up to their end are read so before other tokens, if there are any. -/
theorem loop_reaches
    (hembed : ∀ (P : Seam) (file src : Text), P.Follows (embed file src) (embed file src) SameFragment) {w : World}
    (hw : w.budget = none) (path : Text) (includers : List Text) {ts xs cs : List Token}
    (hparted : ts = [] ∨ Token.Parted (Token.unplacedAll xs))
    (helse : Directive.elseAhead (Token.unplacedAll xs) = none)
    (hsplits : ¬ElseSplits ts (Token.unplacedAll xs)) (hcs : Token.unplacedAll cs = Token.unplacedAll (ts ++ xs))
    (hplaced : Token.AllPlaced ts ∧ Token.AllPlaced cs) {n : Nat} {u : State}
    (hu : Returns (r.loop settings embed n) { world := w, path, includers, stream := .ofTokens ts } none u) (n' : Nat) :
    Reaches r settings embed xs u
      (r.loop settings embed n' { world := w, path, includers, stream := .ofTokens cs }) := by
  rcases hparted with rfl | hparted
  · obtain ⟨-, rfl⟩ := loop_nil (by exact hw) rfl hu
    exact .going hcs hplaced.2 rfl (start_alike ⟨⟨hw, hw⟩, rfl⟩ path includers _ _ rfl ⟨.nil, .nil⟩)
  let P : Seam := ⟨Token.unplacedAll xs, hparted, helse, fun _ => False, ([], [])⟩
  have hsame : whole.Alike { world := w, path, includers, stream := .ofTokens ts }
      { world := w, path, includers, stream := .ofTokens ts } :=
    start_alike ⟨⟨hw, hw⟩, rfl⟩ path includers _ _ rfl ⟨hplaced.1, hplaced.1⟩
  have hstart : P.Alike { world := w, path, includers, stream := .ofTokens ts }
      { world := w, path, includers, stream := .ofTokens cs } :=
    { hsame with
      stream := by rw [Token.Alongside, ← Token.unplacedAll_append]; exact hcs
      placed := hplaced
      ends := fun _ => ⟨rfl, hsplits⟩ }
  have hgoes : P.Goes (r.loop settings embed) _ _ := loop_goes hr hembed n n' P _ _ hstart
  rw [hu] at hgoes
  have hunread {v : State} (h : P.Alike u v) : whole.Alike u.unread v.unread :=
    { h with stream := rfl, placed := ⟨.nil, .nil⟩, ends := fun hne => (hne rfl).elim }
  generalize r.loop settings embed n' { world := w, path, includers, stream := .ofTokens cs } = result at hgoes ⊢
  cases hgoes with
  | done hP hs => exact .ended (Token.unplacedAll_eq_nil hP) (hunread hs)
  | more hP hrest hs =>
    have hstream := hs.stream
    rw [hrest] at hstream
    exact .going hstream hs.placed.2 (hs.markup.trans (hs.ends hP).1) (hunread hs)
  | short => exact .short

end Seam

/-! ## The line -/

/-- The state behind a line with a declaration, before which stands the token `m`: the white space before that token has
been written, something is declared, and the rest of the line is to be left out. -/
def State.pastLine (s : State) (m : Token) (f : Declarations → Declarations) (stream : Stream)
    (last : Option Position) (log : List Record) : State :=
  { s with
    stream, last, world := { s.world with log }, declared := f s.declared
    sink := (s.pushText m.pos m.space).sink, trimLine := true }

/-- Behind the line `line` this text is written as it would be without the line: the white space before the line is the
end of a text that it joins, or it is empty, or that white space was the same as the line. -/
def State.Rejoins (s : State) (m : Token) (line y : Text) : Prop :=
  (s.pushText m.pos m.space).sink.head?.any isText = true ∨ y = [] ∨ m.space = line

namespace Registry
variable {r : Registry} {t : Tools} {s u : State} {m : Token} {ts : List Token}

/-- A turn at a declaration, behind which white space with a line break comes, declares something and lets the rest of
the line be left out. Nothing else has changed but what the white space before the marker has written. -/
theorem turn_declares {id : Ident} {after : List Token} (hat : m.isPunct '@' = true) (hspace : id.space = [])
    (hid : id.pos.isSome = true) (hargs : Directive.IsArgument id.name ts) (hb : s.world.budget = none)
    (hmarkup : s.markup = true) (hbroken : s.broken = false)
    (hword : (m.glued && s.sink.head?.any endsWithWord) = false)
    (hrest : s.stream.rest = m :: .ident id :: (ts ++ after)) (hafter : Token.Parted after) {c : Option ClosingTag}
    (h : Returns (standard.turn t) s c u) : ∃ f new stream last log,
      Declarations.Adds f new ∧ stream.rest = after ∧ Returns t.resume (s.pastLine m f stream last log) c u := by
  obtain ⟨d, hname, hrun⟩ := hargs.taken
  have haction : m.action s.markup s.atStatementStart = .marker := by
    rw [Token.eq_punct hat, hmarkup]
    rfl
  have hturn : standard.turn t s = (do standard.marker t m; goOn t) { s with last := m.pos } := by
    rw [turn_cons standard t hb hrest, haction]
    rfl
  rw [Returns, hturn] at h
  obtain ⟨_, v, hmarker, hgoOn⟩ := Returns.bind h
  have hword' : (s.markup && m.glued && s.sink.head?.any endsWithWord) = false := by rw [hmarkup, Bool.true_and, hword]
  rw [Returns, marker_directive (s := { s with last := m.pos }) hrest hspace hword' hname] at hmarker
  obtain ⟨out, u', hreturned, hend⟩ := Returns.bind hmarker
  obtain ⟨log, trimLine, hrunning⟩ : ∃ log trimLine, ({ s with last := m.pos } : State).running m id = { s with
      stream := s.stream.skip 2, sink := (s.pushText m.pos m.space).sink, last := id.pos
      world := { s.world with log }, trimLine } := by
    have hbefore : ({ s with last := m.pos } : State).beforeMarker m =
        ({ s with last := m.pos } : State).pushText m.pos m.space := if_pos hmarkup
    have hpushed := State.pushText_apart (s := s) (u := { s with last := m.pos }) rfl rfl m.pos m.space
    rw [State.running, hbefore, hpushed]
    exact ⟨_, _, rfl⟩
  rw [hrunning] at hreturned
  obtain ⟨rfl, new, v₁, f, hpasses, hadds, rfl⟩ :=
    hrun t id _ _ _ after hid (by exact hb) (by simp [hrest]) hafter hreturned
  obtain ⟨-, rfl⟩ := Returns.pure hend
  obtain ⟨last, hv₁⟩ := hpasses.frame_unlimited hb
  refine ⟨f, new, v₁.stream, last, log, hadds, hpasses.rest_eq (by simp [hrest]), ?_⟩
  have hstate : ({ v₁ with declared := f v₁.declared, trimLine := true } : State) =
      s.pastLine m f v₁.stream last log := by
    rw [hv₁]
    rfl
  rw [hstate, Returns, goOn_unbroken (by exact hbroken)] at hgoOn
  exact hgoOn

end Registry

/-! ## Behind the line -/

namespace Seam
open Registry
variable {P : Seam} {r : Registry} (hr : r.Moves) {loop : Nat → ParseM (Option ClosingTag)} {t t' : Tools}
  (ht : Uses loop t t') {s s' : State}

include hr ht in
/-- Before a tag only the white space before it is written. -/
theorem Near.tagEntry_outcome {lt : Punct} {pos : Option Position} {space : Text} {ts us : List Token}
    (h : P.Near (.punct lt) (.punct { lt with pos, space }) ts us s s')
    (hcomment : startsWithMarks ['<', '!', '-', '-'] (.punct lt :: ts) = false)
    (hopens : (ts.head?.filter Token.glued).any Token.startsTagName = true) :
    P.Outcome SameEnd (r.tagEntry t lt ts s) (r.tagEntry t' { lt with pos, space } us s') := by
  have halong : Token.Alongside P.after ts us := by
    simpa [afresh, h.rest.1, h.rest.2] using h.behind.stream
  obtain ⟨hcloses, hcomments, hopen⟩ := tagEntry_tests (P := P) lt pos space halong
  have hno : ((ts.head?.filter Token.glued).any (·.isPunct '/') &&
      ts.tail.head?.any fun n => n.glued && n.startsTagName) = false := by
    cases hnext : ts.head?.filter Token.glued with
    | none => rfl
    | some next =>
      rw [hnext, Option.any_some] at hopens
      have hslash : next.isPunct '/' = false := by
        cases next with
        | punct p =>
          refine Bool.eq_false_iff.mpr fun hslash => ?_
          have hchar : p.char = '/' := by simpa [Token.isPunct] using hslash
          simp [Token.startsTagName, hchar] at hopens
        | ident | literal | group => rfl
      rw [Option.any_some, hslash, Bool.false_and]
  refine Outcome.get ?_
  dsimp only
  rw [hcloses, hcomments, hopen, hno, hcomment, hopens]
  exact element_entry hr ht h hopens

/-- Both runs read the same tokens to the end of the file, and only the first one has declared these. -/
def declaring (new : Single → Prop) : Seam := { whole with spare := new }

/-- The first run has read a line that the second one does not have. To the tokens `us` behind it the first run comes
over the white space `line`, the second one over `w`; and texts that are `Free` are written by both in the same way. -/
structure Behind (new : Single → Prop) (line w : Text) (us : List Token) (Free : Text → Prop)
    (s s' : State) : Prop where
  rest : Token.unplacedAll s.stream.rest = Token.unplacedAll (Token.after line us) ∧
    Token.unplacedAll s'.stream.rest = Token.unplacedAll (Token.after w us)
  placed : Token.AllPlaced s.stream.rest ∧ Token.AllPlaced s'.stream.rest
  markup : s.markup = true
  beside : (declaring new).Alike { s.unread with sink := [], trimLine := false }
    { s'.unread with sink := [], trimLine := false }
  parted : line ≠ []
  first : w = [] → s'.sink = []
  text : ∀ y, Free y → ∀ pos pos' : Option Position,
    placelessAll (s'.pushText pos' (w ++ y)).sink = placelessAll (s.pushText pos (line ++ y)).sink ∧
      (s'.pushText pos' (w ++ y)).trimLine = (s.pushText pos (line ++ y)).trimLine

/-- Nothing is written before what the tokens begin with: the first one is the marker of a construct or the start of an
element, or there is none, and nothing is left behind them. -/
def StartsBare (us : List Token) (left : Text) : Prop :=
  match us with
  | [] => left = []
  | t :: ts => t.glued = true ∧ (t.isPunct '@' = true ∨ t.isPunct '<' = true ∧
      startsWithMarks ['<', '!', '-', '-'] (t :: ts) = false ∧
      (ts.head?.filter Token.glued).any Token.startsTagName = true)

namespace Behind
variable {new : Single → Prop} {line w : Text} {us ts : List Token} {u : Token} {Free : Text → Prop}

/-- A line with a declaration behind what both runs have read. -/
theorem pastLine {m : Token} {f : Declarations → Declarations} {stream : Stream} {last : Option Position}
    {log : List Record} (h : whole.Alike s.unread s'.unread) (hmarkup : s.markup = true) (hf : Declarations.Adds f new)
    (hw : m.space.getLast? = some 0x0A ∨ m.space = [] ∧ s'.sink = [] ∧ s'.trimLine = false)
    (hline : ∀ y, State.trimText (line ++ y) = (y, false))
    (hrest : Token.unplacedAll stream.rest = Token.unplacedAll (Token.after line us) ∧
      Token.unplacedAll s'.stream.rest = Token.unplacedAll (Token.after m.space us))
    (hplaced : Token.AllPlaced stream.rest ∧ Token.AllPlaced s'.stream.rest) :
    Behind new line m.space us (s.Rejoins m line) (s.pastLine m f stream last log) s' where
  rest := hrest
  placed := hplaced
  markup := hmarkup
  beside := { h with
    sink := (level_afresh (P := declaring new)).mpr rfl
    trimLine := rfl
    budget := h.budget
    cache := h.cache
    declared := fun x => by
      have hmade : s.declared.Made x ↔ s'.declared.Made x ∨ False := h.declared x
      exact (hf s.declared x).trans (or_congr_left (hmade.trans (or_iff_left id)))
    ends := fun hne => (hne rfl).elim }
  parted := by
    rintro rfl
    exact absurd (hline [0x20]) (by decide)
  first hnil := by
    rcases hw with hw | hw
    · rw [hnil] at hw
      cases hw
    · exact hw.2.1
  text y hy pos pos' := by
    have hsink : placelessAll s'.sink = placelessAll s.sink := (level_afresh (P := whole)).mp h.sink
    have hsame := State.foldl_push_placeless hsink h.trimLine
      (show placelessAll [.text pos' (m.space ++ y)] = placelessAll [.text pos (m.space ++ y)] from rfl)
    have hends : m.space.getLast? = some 0x0A ∨ s.trimLine = false :=
      hw.imp_right fun hw => (show s'.trimLine = s.trimLine from h.trimLine).symm.trans hw.2.2
    have hbehind := @State.pushText_behind s line m.space y hends (hline y) m.pos pos pos hy
    have hpast := State.pushText_apart (s := { s.pushText m.pos m.space with trimLine := true })
      (u := s.pastLine m f stream last log) rfl rfl pos (line ++ y)
    rw [hpast]
    exact ⟨hsame.1.trans hbehind.1, hsame.2.trans hbehind.2⟩

theorem setLast (h : Behind new line w us Free s s') (last last' : Option Position) :
    Behind new line w us Free { s with last } { s' with last := last' } where
  rest := h.rest
  placed := h.placed
  markup := h.markup
  beside := { h.beside with }
  parted := h.parted
  first := h.first
  text y hy pos pos' := by
    rw [State.pushText_apart (s := s) (u := { s with last }) rfl rfl,
      State.pushText_apart (s := s') (u := { s' with last := last' }) rfl rfl]
    exact h.text y hy pos pos'

theorem markup_second (h : Behind new line w us Free s s') : s'.markup = true := h.beside.markup.trans h.markup

theorem unlimited (h : Behind new line w us Free s s') : s.world.budget = none ∧ s'.world.budget = none :=
  h.beside.budget

/-- The next token of both runs, before which only white space is written. -/
theorem near (h : Behind new line w (u :: us) Free s s') (hfree : Free u.space) : ∃ tok tok' ts ts',
    Token.Same (u.withSpace (line ++ u.space)) tok ∧ Token.Same (u.withSpace (w ++ u.space)) tok' ∧
      Token.unplacedAll ts = Token.unplacedAll us ∧ (declaring new).Near tok tok' ts ts' s s' := by
  obtain ⟨tok, ts, hrest, htok, hts⟩ := Token.exists_same h.rest.1
  obtain ⟨tok', ts', hrest', htok', hts'⟩ := Token.exists_same h.rest.2
  refine ⟨tok, tok', ts, ts', htok, htok', hts, ⟨hrest, hrest'⟩, ?_, ?_, h.beside.markup, ?_, ?_⟩
  · have hsame : Token.Same (tok.withSpace []) (tok'.withSpace []) := by
      rw [Token.Same, Token.unplaced_withSpace, Token.unplaced_withSpace, htok, htok']
      simp only [Token.unplaced_withSpace, Token.withSpace_withSpace]
    exact hsame.shifted
  · rw [← hrest, ← hrest']
    exact h.placed
  · have hskipped : (s.stream.skip 1).rest = ts ∧ (s'.stream.skip 1).rest = ts' := by simp [hrest, hrest']
    have hplaced : Token.AllPlaced ts ∧ Token.AllPlaced ts' := by
      have hplaced := h.placed
      rw [hrest, hrest'] at hplaced
      exact ⟨hplaced.1.drop 1, hplaced.2.drop 1⟩
    exact { h.beside with
      stream := by
        rw [hskipped.1, hskipped.2]
        exact .of_eq (hts'.trans hts.symm)
      placed := by
        rw [hskipped.1, hskipped.2]
        exact hplaced
      ends := fun hne => (hne rfl).elim }
  · intro pos pos'
    have hwritten := h.text u.space hfree pos pos'
    rw [spaceBefore, spaceBefore, if_pos h.markup, if_pos h.markup_second, htok.space, htok'.space,
      Token.space_withSpace, Token.space_withSpace]
    exact ⟨(level_afresh (P := declaring new)).mpr hwritten.1, hwritten.2⟩

/-- The next token goes on no word in either run. -/
theorem apart (h : Behind new line w (u :: us) Free s s') {tok tok' : Token}
    (htok : Token.Same (u.withSpace (line ++ u.space)) tok) (htok' : Token.Same (u.withSpace (w ++ u.space)) tok') :
    (tok.glued && s.sink.head?.any Node.endsWithWord) = false ∧
      (tok'.glued && s'.sink.head?.any Node.endsWithWord) = false := by
  constructor
  · have hline : (line ++ u.space).isEmpty = false := by simp [h.parted]
    rw [htok.glued, Token.glued_withSpace, hline, Bool.false_and]
  · rw [htok'.glued, Token.glued_withSpace]
    cases w with
    | nil => rw [h.first rfl, List.head?_nil, Option.any_none, Bool.and_false]
    | cons => rfl

/-- Any text may be written before it, and after the white space before it. -/
theorem ahead (h : Behind new line w (u :: us) Free s s') (hfree : ∀ y, Free y) : ∃ tok tok' ts ts',
    (declaring new).Ahead tok tok' ts ts' s s' := by
  obtain ⟨tok, tok', ts, ts', htok, htok', -, hnear⟩ := h.near (hfree _)
  refine ⟨tok, tok', ts, ts', hnear, fun hcode => ?_, ?_, fun x pos pos' => ?_⟩
  · rw [h.markup] at hcode
    cases hcode
  · rw [(h.apart htok htok').1, (h.apart htok htok').2]
  · have hwritten := h.text (u.space ++ x) (hfree _) pos pos'
    rw [spaceBefore, spaceBefore, if_pos h.markup, if_pos h.markup_second, htok.space, htok'.space,
      Token.space_withSpace, Token.space_withSpace, List.append_assoc, List.append_assoc]
    exact ⟨(level_afresh (P := declaring new)).mpr hwritten.1, hwritten.2⟩

include hr ht in
/-- A turn behind the line. -/
theorem turn_goes (h : Behind new line w (u :: us) Free s s')
    {left : Text} (hfree : (∀ y, Free y) ∨ Free [] ∧ StartsBare (u :: us) left) :
    (declaring new).Goes loop (r.turn t s) (r.turn t' s') := by
  obtain ⟨tok, ts, hrest, htok, hts⟩ := Token.exists_same h.rest.1
  obtain ⟨tok', ts', hrest', htok', -⟩ := Token.exists_same h.rest.2
  have haction : tok.action s.markup s.atStatementStart = tok.action true s.atStatementStart := by rw [h.markup]
  have haction' : tok'.action s'.markup s'.atStatementStart = tok'.action true s'.atStatementStart := by
    rw [h.markup_second]
  rw [turn_cons r t h.unlimited.1 hrest, turn_cons r t' h.unlimited.2 hrest', haction, haction']
  have hlast := h.setLast tok.pos tok'.pos
  rcases hfree with hfree | ⟨hfree, hglued, hstart⟩
  · obtain ⟨_, _, _, _, hahead⟩ := hlast.ahead hfree
    obtain ⟨rfl, rfl⟩ := List.cons.inj (hrest.symm.trans hahead.rest.1)
    obtain ⟨rfl, rfl⟩ := List.cons.inj (hrest'.symm.trans hahead.rest.2)
    exact act_goes hr ht hahead h.markup _ _
  · obtain ⟨_, _, _, _, -, -, -, hnear⟩ := hlast.near (by rwa [List.isEmpty_iff.mp hglued])
    obtain ⟨rfl, rfl⟩ := List.cons.inj (hrest.symm.trans hnear.rest.1)
    obtain ⟨rfl, rfl⟩ := List.cons.inj (hrest'.symm.trans hnear.rest.2)
    rcases hstart with hmarker | ⟨hlt, hcomment, hopens⟩
    · have hat : tok.isPunct '@' = true := by rw [htok.isPunct, Token.isPunct_withSpace, hmarker]
      have hat' : tok'.isPunct '@' = true := by rw [htok'.isPunct, Token.isPunct_withSpace, hmarker]
      obtain ⟨hword, hword'⟩ := h.apart htok htok'
      have houtcome := hnear.marker_outcome hr ht (by simp [hword]) (by simp [hword'])
      rw [Token.eq_punct hat, Token.eq_punct hat'] at houtcome ⊢
      exact houtcome.andThen Goes.lax fun _ _ _ _ _ _ _ hs => goOn_goes ht hs
    · obtain ⟨hcomment', hopens'⟩ : startsWithMarks ['<', '!', '-', '-'] (tok :: ts) = false ∧
          (ts.head?.filter Token.glued).any Token.startsTagName = true := by
        constructor
        · rw [startsWithMarks] at hcomment ⊢
          rwa [htok.isPunct, Token.isPunct_withSpace, ← Token.gluedMarks_unplacedAll, hts,
            Token.gluedMarks_unplacedAll]
        · cases us with
          | nil => cases hopens
          | cons v us =>
            obtain ⟨v', ts, rfl, hv, -⟩ := Token.exists_same hts
            cases hg : v.glued with
            | true => simpa [Option.filter, hv.glued, hg, hv.startsTagName] using hopens
            | false => simp [Option.filter, hg] at hopens
      have hat : tok.isPunct '<' = true := by rw [htok.isPunct, Token.isPunct_withSpace, hlt]
      have hat' : tok'.isPunct '<' = true := by rw [htok'.isPunct, Token.isPunct_withSpace, hlt]
      rw [Token.eq_punct hat] at hnear hcomment' ⊢
      rw [Token.eq_punct hat'] at hnear ⊢
      exact tagAct_goes ht (hnear.tagEntry_outcome hr ht hcomment' hopens')

include hr in
/-- Behind the line both runs read the rest of the file alike, if the second one has turns enough. -/
theorem loop_ends (h : Behind new line w us Free s s') {settings : Settings} {embed : Text → Text → ParseM Fragment}
    (hembed : ∀ (P : Seam) (file src : Text), P.Follows (embed file src) (embed file src) SameFragment) {left : Text}
    (hfree : (∀ y, Free y) ∨ Free [] ∧ StartsBare us left) {n : Nat} {z : State}
    (hz : Returns (r.loop settings embed n) s none z) (n' : Nat) :
    (∃ e, r.loop settings embed n' s' = .error .exhausted e) ∨ ∃ z', Returns (r.loop settings embed n') s' none z' ∧
      ∀ pos pos' : Option Position, placelessAll (z'.pushText pos' (if us = [] then w ++ left else left)).sink =
        placelessAll (z.pushText pos (if us = [] then line ++ left else left)).sink := by
  cases n' with
  | zero => exact .inl ⟨s', rfl⟩
  | succ n' =>
    cases us with
    | nil =>
      have hend : Token.unplacedAll s'.stream.rest = [] := h.rest.2
      have hstart : Token.unplacedAll s.stream.rest = [] := h.rest.1
      obtain ⟨-, rfl⟩ := loop_nil h.unlimited.1 (Token.unplacedAll_eq_nil hstart) hz
      refine .inr ⟨s', turn_nil r _ h.unlimited.2 (Token.unplacedAll_eq_nil hend), fun pos pos' => ?_⟩
      refine (h.text left ?_ pos pos').1
      rcases hfree with hfree | ⟨hfree, rfl⟩
      · exact hfree left
      · exact hfree
    | cons u us =>
      cases n with
      | zero => cases hz
      | succ n =>
        have huses : Uses (r.loop settings embed) (r.tools settings embed n) (r.tools settings embed n') :=
          ⟨rfl, fun P s s' hs => Seam.loop_goes hr hembed n n' P s s' hs, hembed⟩
        have hgoes := (h.turn_goes hr huses hfree).ends rfl
        have hfirst : r.turn (r.tools settings embed n) s = .ok none z := hz
        have hsecond : r.loop settings embed (n' + 1) s' = r.turn (r.tools settings embed n') s' := rfl
        rw [hfirst] at hgoes
        unfold Returns
        rw [hsecond]
        generalize r.turn (r.tools settings embed n') s' = result at hgoes ⊢
        cases hgoes with
        | short => exact .inl ⟨_, rfl⟩
        | @ok _ c _ z' hend hs =>
          cases c with
          | some => exact hend.elim
          | none =>
            refine .inr ⟨z', rfl, fun pos pos' => ?_⟩
            rw [if_neg (by simp), if_neg (by simp)]
            have hpushed := hs.foldl_push (show placelessAll [.text pos' left] = placelessAll [.text pos left] from rfl)
            exact (level_afresh (P := declaring new)).mp hpushed.sink

end Behind

include hr in
/-- How the second run ends, with what comes behind the last token. -/
theorem Reaches.ends {settings : Settings} {embed : Text → Text → ParseM Fragment} {new : Single → Prop}
    {line w left : Text} {us : List Token} {Free : Text → Prop} {u z : State} {n : Nat}
    {found : EStateM.Result Error State (Option ClosingTag)} (h : Reaches r settings embed (Token.after w us) u found)
    (hembed : ∀ (P : Seam) (file src : Text), P.Follows (embed file src) (embed file src) SameFragment)
    (hbehind : ∀ s', whole.Alike u.unread s'.unread →
      Token.unplacedAll s'.stream.rest = Token.unplacedAll (Token.after w us) → Token.AllPlaced s'.stream.rest →
        Behind new line w us Free s s')
    (hfree : (∀ y, Free y) ∨ Free [] ∧ StartsBare us left) (hz : Returns (r.loop settings embed n) s none z) :
    (∃ e, found = .error .exhausted e) ∨ ∃ z', found = .ok none z' ∧ ∀ pos pos' : Option Position,
      placelessAll (z'.pushText pos' (if us = [] then w ++ left else left)).sink =
        placelessAll (z.pushText pos (if us = [] then line ++ left else left)).sink := by
  cases h with
  | short => exact .inl ⟨_, rfl⟩
  | @ended v hnone halike =>
    have hus : Token.unplacedAll v.unread.stream.rest = Token.unplacedAll (Token.after w us) := by
      rw [hnone]
      rfl
    have hnil : r.loop settings embed 1 v.unread = .ok none v.unread := turn_nil r _ halike.budget.2 rfl
    rcases (hbehind v.unread halike hus .nil).loop_ends hr hembed hfree hz 1 with ⟨e, hshort⟩ | ⟨z', hz', hsink⟩
    · rw [hnil] at hshort
      cases hshort
    · obtain ⟨-, rfl⟩ := EStateM.Result.ok.inj (hnil.symm.trans hz')
      refine .inr ⟨v, rfl, fun pos pos' => ?_⟩
      rw [State.pushText_apart (s := v.unread) (u := v) rfl rfl]
      exact hsink pos pos'
  | going hrest hplaced _ halike => exact (hbehind _ halike hrest hplaced).loop_ends hr hembed hfree hz _

/-- A run that ends has read a declaration on a line of its own where it comes to one. -/
theorem Reaches.pastLine {settings : Settings} {embed : Text → Text → ParseM Fragment} {line w name : Text}
    {us args : List Token} {pos pos' : Option Position} {u z : State}
    (h : Reaches .standard settings embed
      (Token.after w (.punct ⟨pos, [], '@'⟩ :: .ident ⟨pos', [], name⟩ :: (args ++ Token.after line us))) u
      (.ok none z))
    (hargs : Directive.IsArgument name args) (hline : line.getLast? = some 0x0A) (hfirst : w = [] → u.sink = []) :
    ∃ (v : State) (m : Token) (f : Declarations → Declarations) (new : Single → Prop) (stream : Stream)
      (last : Option Position) (log : List Record) (n : Nat),
      m.space = w ∧ v.markup = true ∧ whole.Alike u.unread v.unread ∧ Declarations.Adds f new ∧
      Token.unplacedAll stream.rest = Token.unplacedAll (Token.after line us) ∧ Token.AllPlaced stream.rest ∧
      Returns (Registry.standard.loop settings embed n) (v.pastLine m f stream last log) none z := by
  generalize hfound : EStateM.Result.ok none z = found at h
  cases h with
  | short => cases hfound
  | ended hnone => cases hnone
  | @going n v hrest hplaced hmarkup halike =>
    cases n with
    | zero => cases hfound
    | succ n =>
      rw [Token.after] at hrest
      obtain ⟨m, vs, hvs, hm, hrest⟩ := Token.exists_same hrest
      obtain ⟨i, vs, rfl, hi, hrest⟩ := Token.exists_same hrest
      rw [Token.unplacedAll_append] at hrest
      obtain ⟨args', after, rfl, hargs', hafter⟩ := Token.unplacedAll_eq_append hrest
      obtain ⟨ipos, rfl⟩ := hi.ident
      have hspace : m.space = w := hm.space.trans (List.append_nil w)
      have hsink : w = [] → v.sink = [] := fun hw => by
        have hsame : placelessAll v.sink = placelessAll u.sink := (level_afresh (P := whole)).mp halike.sink
        rw [hfirst hw, placelessAll_eq_map] at hsame
        exact List.map_eq_nil_iff.mp hsame
      have hword : (m.glued && v.sink.head?.any Node.endsWithWord) = false := by
        rw [Token.glued, hspace]
        cases hw : w with
        | nil => rw [hsink hw, List.head?_nil, Option.any_none, Bool.and_false]
        | cons => rfl
      rw [hvs] at hplaced
      have hunlimited : v.world.budget = none := halike.budget.2
      have hunbroken : v.broken = false := halike.unbroken.2
      obtain ⟨f, new, stream, last, log, hadds, rfl, hloop⟩ := Registry.turn_declares (hm.isPunct '@') rfl
        (hplaced.drop 1).head (hargs.congr hargs') hunlimited hmarkup hunbroken hword hvs
        (Token.parted_of_after hline hafter) hfound.symm
      exact ⟨v, m, f, new, stream, last, log, n, hspace, hmarkup, halike, hadds, hafter,
        hplaced.mono fun t ht => by simp [ht], hloop⟩

end Seam

/-! ## Templates -/

/-- The text of generated code, as it is and with its calls joined. -/
def Code.texts (settings : Settings) (code : List Token) : Text × Text :=
  (Token.format code, Token.format (coalesce settings.buffer code))

/-- The source of one declaration, at the beginning of a line: the marker, the name of the directive and all it has to
read, with white space behind it. -/
structure Directive.Alone (d blank : Text) : Prop where
  marker : d.head? = some 0x40
  tokens : ∃ pos pos' name args, Token.lex d = .ok (.punct ⟨pos, [], '@'⟩ :: .ident ⟨pos', [], name⟩ :: args, blank) ∧
    Directive.IsArgument name args
  indent : ∀ b ∈ blank, Text.isIndent b = true

/-- A block of declarations alone, from what its tokens are. -/
theorem Directive.Alone.block {d blank : Text} {m i g : Token} {name : String} (hmarker : d.head? = some 0x40)
    (hlex : Token.lex d = .ok ([m, i, g], blank)) (hm : m.isPunct '@' = true ∧ m.glued = true)
    (hi : i.isNamed name = true ∧ i.glued = true) (hg : g.isGroup .brace = true)
    (hname : name ∈ ["functions", "struct", "impl"]) (hindent : ∀ b ∈ blank, Text.isIndent b = true) :
    Directive.Alone d blank := by
  have hspace : m.space = [] := List.isEmpty_iff.mp hm.2
  have hspace' : i.space = [] := List.isEmpty_iff.mp hi.2
  have hident : i = .ident ⟨i.pos, i.space, utf8 name⟩ := by
    cases i with
    | ident i =>
      obtain ⟨pos, space, _⟩ := i
      exact congrArg (fun name => Token.ident ⟨pos, space, name⟩) (of_decide_eq_true hi.1)
    | _ => cases hi.1
  cases g with
  | group f cs =>
    rw [Token.eq_punct hm.1, hspace, hident, hspace'] at hlex
    exact ⟨hmarker, ⟨_, _, _, _, hlex, .block f cs (List.mem_map_of_mem hname)⟩, hindent⟩
  | _ => cases hg

namespace Template
variable {settings : Settings} {path : Text} {w : World}

/-- What is written is the same with the line as without it, but for positions. -/
theorem nodes_declaredLine {a b d nl blank left left' : Text} {ts us : List Token} {t t' : Template} {w₁ w₂ : World}
    (hw : w.budget = none) (ha : a = [] ∨ a.getLast? = some 0x0A) (hd : Directive.Alone d blank)
    (hnl : nl = [0x0A] ∨ nl = [0x0D, 0x0A]) (hmark : Lexeme.unmarked b = b) (hlexA : Token.lex a = .ok (ts, left))
    (hlexB : Token.lex b = .ok (us, left')) (helse : Directive.elseAhead us = none) (hsplits : ¬Seam.ElseSplits ts us)
    (hparse : parse .standard settings path a w = .ok t w₁)
    (hparse' : parse .standard settings path (a ++ (d ++ nl ++ b)) w = .ok t' w₂)
    (hjoins : t.nodes.getLast?.any isText = true ∨ Seam.StartsBare us left' ∨ left = blank ++ nl) :
    ∃ t'' w₃, parse .standard settings path (a ++ b) w = .ok t'' w₃ ∧
      placelessAll t''.nodes = placelessAll t'.nodes := by
  obtain ⟨n, hn⟩ : ∃ n, includeBound settings = n + 1 := ⟨_, rfl⟩
  have hembed := Seam.embed_follows Registry.standard_moves settings n [] path
  obtain ⟨pos, pos', name, args, hlexD, hargs⟩ := hd.tokens
  obtain ⟨xs, hlexX, hxs⟩ := Token.lex_behind hlexA ha hlexB hmark
  obtain ⟨ys, hlexY, hys⟩ := Token.lex_line hlexA ha hd.marker (by simp) hlexD hnl hlexB hmark
  obtain ⟨u, hloopA, hnodesA⟩ := loop_of_parse hlexA hw hn hparse
  obtain ⟨z, hloopY, hnodesY⟩ := loop_of_parse hlexY hw hn hparse'
  have hbreak : (blank ++ nl).getLast? = some 0x0A := by rcases hnl with rfl | rfl <;> simp
  have hplaced {src left : Text} {us : List Token} (hlex : Token.lex src = .ok (us, left)) :
      Token.AllPlaced ts ∧ Token.AllPlaced us := ⟨Token.allPlaced_of_lex hlexA, Token.allPlaced_of_lex hlex⟩
  -- The first source ends with a line break or has nothing in it.
  obtain ⟨hparted, hfirst⟩ : (∀ us, ts = [] ∨ Token.Parted (Token.unplacedAll (Token.after left us))) ∧
      (left.getLast? = some 0x0A ∨ left = [] ∧ u.sink = [] ∧ u.trimLine = false) := by
    rcases ha with rfl | ha
    · have hnone : Token.lex [] = .ok ([], []) := rfl
      obtain ⟨rfl, rfl⟩ := Prod.mk.inj (Except.ok.inj (hnone.symm.trans hlexA))
      obtain ⟨-, rfl⟩ := Seam.loop_nil (by exact hw) rfl hloopA
      exact ⟨fun _ => .inl rfl, .inr ⟨rfl, rfl, rfl⟩⟩
    · have hleft := (Token.lex_append hlexA ha hlexB hmark).1
      exact ⟨fun _ => .inr (Token.parted_of_after hleft (Token.unplacedAll_unplacedAll _)), .inl hleft⟩
  -- One run comes to the line, and past it.
  have hreachesY := Seam.loop_reaches Registry.standard_moves hembed hw path [] (hparted _)
    (Token.elseAhead_after (hargs.elseAhead_none pos pos' _) left)
    (Token.elseSplits_after (fun h => by cases h.2) left) hys (hplaced hlexY) hloopA (Registry.standard.turns w ys)
  rw [hloopY] at hreachesY
  obtain ⟨v, m, f, new, stream, last, log, k, rfl, hmarkup, halike, hadds, hrest, hplacedY, hloop⟩ :=
    hreachesY.pastLine hargs hbreak fun hleft => by
      rcases hfirst with hfirst | hfirst
      · rw [hleft] at hfirst
        cases hfirst
      · exact hfirst.2.1
  have hsink {v : State} (h : Seam.whole.Alike u.unread v.unread) : placelessAll v.sink = placelessAll u.sink :=
    (Seam.level_afresh (P := Seam.whole)).mp h.sink
  have hfree : (∀ y, v.Rejoins m (blank ++ nl) y) ∨ v.Rejoins m (blank ++ nl) [] ∧ Seam.StartsBare us left' := by
    rcases hjoins with hjoins | hbare | hline
    · refine .inl fun y => .inl ?_
      have hsame := State.foldl_push_placeless (hsink halike) halike.trimLine
        (show placelessAll [.text m.pos m.space] = placelessAll [.text (Stream.ofTokens ts).stop m.space] from rfl)
      have hnodes : (u.pushText (Stream.ofTokens ts).stop m.space).sink.head? = t.nodes.getLast? := by
        rw [hnodesA, List.getLast?_reverse]
      exact (State.endsWithText_congr hsame.1).trans ((congrArg (Option.any isText) hnodes).trans hjoins)
    · exact .inr ⟨.inr (.inl rfl), hbare⟩
    · exact .inl fun y => .inr (.inr hline)
  -- The other one goes on without the line.
  have hreachesX := Seam.loop_reaches Registry.standard_moves hembed hw path [] (hparted us)
    (Token.elseAhead_after helse _) (Token.elseSplits_after hsplits _) hxs (hplaced hlexX) hloopA
    (Registry.standard.turns w xs)
  have hbehind {v' : State} (halike' : Seam.whole.Alike u.unread v'.unread)
      (hrest' : Token.unplacedAll v'.stream.rest = Token.unplacedAll (Token.after m.space us))
      (hplaced' : Token.AllPlaced v'.stream.rest) :
      Seam.Behind new (blank ++ nl) m.space us (v.Rejoins m (blank ++ nl)) (v.pastLine m f stream last log) v' := by
    refine .pastLine (halike.euclid halike') hmarkup hadds (hfirst.imp_right fun hfirst => ⟨hfirst.1, ?_, ?_⟩)
      (State.trimText_line hd.indent hnl) ⟨hrest, hrest'⟩ ⟨hplacedY, hplaced'⟩
    · have hnil := hsink halike'
      rw [hfirst.2.1, placelessAll_eq_map] at hnil
      exact List.map_eq_nil_iff.mp hnil
    · exact halike'.trimLine.trans hfirst.2.2
  rcases hreachesX.ends Registry.standard_moves hembed (fun _ => hbehind) hfree hloop with
    ⟨e, hshort⟩ | ⟨z', hloopX, hwritten⟩
  · exact (loop_ne_exhausted hlexX hw hn e hshort).elim
  · obtain ⟨t'', hparsed, hnodes⟩ := parse_of_returns hlexX hw hn hloopX
    exact ⟨t'', _, hparsed, by rw [hnodes, hnodesY, placelessAll_reverse, placelessAll_reverse, hwritten]⟩

/-- A declaration on a line of its own leaves no trace in the code: without the line, the line break behind it included,
the template parses too, and its code has the same text, with its calls joined or not. So it is where the source before
the line has written text up to the line, or nothing is written right behind the line before a construct or an element,
or the white space before the line is the same as what stands behind the declaration; otherwise the text behind the line
begins a node of its own and keeps the line break. -/
theorem parse_declaredLine {a b d nl blank left left' : Text} {ts us : List Token} {t t' : Template} {w₁ w₂ : World}
    (hw : w.budget = none) (ha : a = [] ∨ a.getLast? = some 0x0A) (hd : Directive.Alone d blank)
    (hnl : nl = [0x0A] ∨ nl = [0x0D, 0x0A]) (hmark : Lexeme.unmarked b = b) (hlexA : Token.lex a = .ok (ts, left))
    (hlexB : Token.lex b = .ok (us, left')) (helse : Directive.elseAhead us = none) (hsplits : ¬Seam.ElseSplits ts us)
    (hparse : parse .standard settings path a w = .ok t w₁)
    (hparse' : parse .standard settings path (a ++ (d ++ nl ++ b)) w = .ok t' w₂)
    (hjoins : t.nodes.getLast?.any isText = true ∨ Seam.StartsBare us left' ∨ left = blank ++ nl) :
    ∃ t'' w₃, parse .standard settings path (a ++ b) w = .ok t'' w₃ ∧
      WorldM.Concur (Code.texts settings) (Code.ofNodes settings t''.nodes) (Code.ofNodes settings t'.nodes) := by
  obtain ⟨t'', w₃, hparsed, hnodes⟩ :=
    nodes_declaredLine hw ha hd hnl hmark hlexA hlexB helse hsplits hparse hparse' hjoins
  refine ⟨t'', w₃, hparsed, (Code.ofNodes_concur settings hnodes).mono fun code code' hsame => ?_⟩
  exact Prod.ext (Token.format_congr hsame) (Token.format_congr (Code.coalesce_unplaced hsame))

/-- A type between two lines of text, with a carriage return before its line break. -/
theorem parse_declaredLine_text : ∃ (ts us : List Token) (t t' t'' : Template) (w₁ w₂ w₃ : World),
    ({} : World).budget = none ∧ (utf8 "Hello\n").getLast? = some 0x0A ∧
    Directive.Alone (utf8 "@struct { Title string }") [] ∧ Lexeme.unmarked (utf8 "World") = utf8 "World" ∧
    Token.lex (utf8 "Hello\n") = .ok (ts, utf8 "\n") ∧ Token.lex (utf8 "World") = .ok (us, []) ∧
    Directive.elseAhead us = none ∧ ¬Seam.ElseSplits ts us ∧
    parse .standard { markdown := .ok } (utf8 "index.rhtml") (utf8 "Hello\n") {} = .ok t w₁ ∧
    parse .standard { markdown := .ok } (utf8 "index.rhtml")
      (utf8 "Hello\n" ++ (utf8 "@struct { Title string }" ++ [0x0D, 0x0A] ++ utf8 "World")) {} = .ok t' w₂ ∧
    t.nodes.getLast?.any isText = true ∧
    parse .standard { markdown := .ok } (utf8 "index.rhtml") (utf8 "Hello\n" ++ utf8 "World") {} = .ok t'' w₃ ∧
    WorldM.Concur (Code.texts { markdown := .ok }) (Code.ofNodes { markdown := .ok } t''.nodes)
      (Code.ofNodes { markdown := .ok } t'.nodes) := by
  have hline : (utf8 "Hello\n").getLast? = some 0x0A := by decide +kernel
  have hmark : Lexeme.unmarked (utf8 "World") = utf8 "World" := by decide +kernel
  have hA : (Token.lex (utf8 "Hello\n")).toOption.any (fun found => found.2 = utf8 "\n") = true := by decide +kernel
  have hB : (Token.lex (utf8 "World")).toOption.any (fun found => found.2 = [] && found.1.length = 1 &&
      !found.1.any fun t => t.isNamed "if" || t.isGroup .brace) = true := by decide +kernel
  have hD : (Token.lex (utf8 "@struct { Title string }")).toOption.any (fun found => found.2 = [] &&
      found.1.length = 3 && found.1[0]?.any (fun m => m.isPunct '@' && m.glued) &&
      found.1[1]?.any (fun i => i.isNamed "struct" && i.glued) && found.1[2]?.any (·.isGroup .brace)) = true := by
    decide +kernel
  have hok : WorldM.returned (fun t => t.nodes.getLast?.any isText)
      (parse .standard { markdown := .ok } (utf8 "index.rhtml") (utf8 "Hello\n") {}) = true := by
    rw [Registry.standard_eq]
    decide +kernel
  have hok' : WorldM.returned (fun _ => true) (parse .standard { markdown := .ok } (utf8 "index.rhtml")
      (utf8 "Hello\n" ++ (utf8 "@struct { Title string }" ++ [0x0D, 0x0A] ++ utf8 "World")) {}) = true := by
    rw [Registry.standard_eq]
    decide +kernel
  obtain ⟨ts, left, hlexA, hleft⟩ := exists_lex_of_any _ hA
  obtain ⟨us, left', hlexB, hus⟩ := exists_lex_of_any _ hB
  obtain ⟨ds, blank, hlexD, hds⟩ := exists_lex_of_any _ hD
  obtain ⟨t, w₁, hparse, hjoins⟩ := WorldM.exists_of_returned hok
  obtain ⟨t', w₂, hparse', -⟩ := WorldM.exists_of_returned hok'
  simp only [Bool.and_eq_true, decide_eq_true_eq] at hleft hus hds
  obtain ⟨⟨rfl, hone⟩, hhead⟩ := hus
  obtain ⟨⟨⟨⟨rfl, hthree⟩, hmarker⟩, hname⟩, hgroup⟩ := hds
  subst hleft
  obtain ⟨u, rfl⟩ := List.length_eq_one_iff.mp hone
  obtain ⟨m, i, g, rfl⟩ := List.length_eq_three.mp hthree
  have hd : Directive.Alone (utf8 "@struct { Title string }") [] :=
    .block (by decide +kernel) hlexD ((Bool.and_eq_true _ _).mp hmarker) ((Bool.and_eq_true _ _).mp hname) hgroup
      (by decide) (by simp)
  have hsplits : ¬Seam.ElseSplits ts [u] := by
    rintro ⟨-, hif⟩
    have hstarts : (u.isNamed "if" || u.isGroup .brace) = true := hif
    simp [hstarts] at hhead
  obtain ⟨t'', w₃, hparsed, hsame⟩ := parse_declaredLine rfl (.inr hline) hd (.inr rfl) hmark hlexA hlexB rfl hsplits
    hparse hparse' (.inl hjoins)
  exact ⟨ts, [u], t, t', t'', w₁, w₂, w₃, rfl, hline, hd, hmark, hlexA, hlexB, rfl, hsplits, hparse, hparse',
    hjoins, hparsed, hsame⟩

end Template
end Atmark
