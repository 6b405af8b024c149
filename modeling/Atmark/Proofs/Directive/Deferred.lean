import Atmark.Proofs.Cache.Coherent
import Atmark.Proofs.Code.Generated
import Atmark.Proofs.Directive.Growth
import Atmark.Proofs.Parse.Trim

/-! Contents that are included at once and contents that are left for later. A directive that reads its file
while parsing adds a text; its other form leaves a node behind that becomes the same text when the nodes are
lowered. The code is the same if nothing of the text was trimmed, but the parser looks at texts and not at such
nodes: it goes on in the same way exactly if the text settles (`Directive.contentFile_agrees`). -/
namespace Atmark
open Node ParseM

/-! ## What the parser looks at -/

namespace State

/-- The parser cannot tell the states apart: they are the same but for the world and the nodes that have been
read, and of these it sees whether there are any and how the last one ends. -/
structure LooksLike (s u : State) : Prop where
  path : u.path = s.path
  includers : u.includers = s.includers
  declared : u.declared = s.declared
  stream : u.stream = s.stream
  atStart : u.atStart = s.atStart
  markup : u.markup = s.markup
  last : u.last = s.last
  broken : u.broken = s.broken
  trimLine : u.trimLine = s.trimLine
  empty : u.sink.isEmpty = s.sink.isEmpty
  statement : u.atStatementStart = s.atStatementStart
  word : u.sink.head?.any endsWithWord = s.sink.head?.any endsWithWord

/-- A text leaves the parser as it is after other nodes: it does not end with a letter or a digit, and if nothing
is left of it, the nodes before it do so in its place. -/
def settles (s : State) (text : Text) : Bool :=
  if (s.trimmed text).1.isEmpty then
    !(s.trimmed text).2 && !s.sink.isEmpty && s.atStatementStart && !s.sink.head?.any endsWithWord
  else !text.getLast?.any isWordByte

/-- After the text of a content the parser goes on as after a content that is left for later, exactly if the text
settles. -/
theorem pushText_looksLike_iff (s : State) (world : World) (p pos : Option Position) (text name includer : Text)
    (markdown : Bool) :
    ({ s with world }.pushText p text).LooksLike (s.push (.external pos name includer markdown)) ↔
      s.settles text = true := by
  have htrimmed : ({ s with world } : State).trimmed text = s.trimmed text := rfl
  rw [pushText_eq, htrimmed]
  unfold settles
  by_cases hempty : (s.trimmed text).1.isEmpty = true
  · rw [if_pos hempty, if_pos hempty]
    simp only [Bool.and_eq_true, Bool.not_eq_true']
    constructor
    · intro h
      exact ⟨⟨⟨h.trimLine.symm, h.empty.symm⟩, h.statement.symm⟩, h.word.symm⟩
    · rintro ⟨⟨⟨htrim, hsome⟩, hstatement⟩, hword⟩
      exact ⟨rfl, rfl, rfl, rfl, rfl, rfl, rfl, rfl, htrim.symm, hsome.symm, hstatement.symm, hword.symm⟩
  · have hne : (s.trimmed text).1 ≠ [] := by simpa using hempty
    rw [if_neg hempty, if_neg hempty]
    -- Another text at the head grows; in each case the head ends as the text does.
    have hhead {u : State} {q : Option Position} {content : Text} {rest : List Node}
        (hu : u = { s with world, trimLine := false, sink := .text q content :: rest })
        (hlast : content.getLast? = text.getLast?) :
        u.LooksLike (s.push (.external pos name includer markdown)) ↔ (!text.getLast?.any isWordByte) = true := by
      subst hu
      rw [← hlast, Bool.not_eq_true']
      refine ⟨fun h => h.word.symm, fun hword => ?_⟩
      exact ⟨rfl, rfl, rfl, rfl, rfl, rfl, rfl, rfl, rfl, rfl, rfl, hword.symm⟩
    split
    · rename_i q before rest hsink
      refine hhead (by rw [trimmed_ends hne]) ?_
      rw [List.getLast?_append_of_ne_nil _ hne, getLast?_trimmed hne]
    · exact hhead rfl rfl

end State

/-! ## The code of neighbouring texts -/

namespace Code
variable {buf : Text}

theorem piecesFrom_unplaced (buf pending : Text) (p p' : Option Position) (ns : List Node) :
    (piecesFrom buf pending p ns).map Piece.unplaced = (piecesFrom buf pending p' ns).map Piece.unplaced :=
  (piecesFrom_bare buf ns pending none p).symm.trans (piecesFrom_bare buf ns pending none p')

/-- Nodes may be preceded by the same others. -/
theorem piecesFrom_prefix {ms ms' : List Node}
    (h : ∀ pending p, (piecesFrom buf pending p ms).map Piece.unplaced =
      (piecesFrom buf pending p ms').map Piece.unplaced) (ns : List Node) (pending : Text) (p : Option Position) :
    (piecesFrom buf pending p (ns ++ ms)).map Piece.unplaced =
      (piecesFrom buf pending p (ns ++ ms')).map Piece.unplaced := by
  induction ns generalizing pending p with
  | nil => exact h pending p
  | cons n ns ih =>
    cases n with
    | text q t => exact ih _ _
    | _ => simp only [List.cons_append, piecesFrom, List.map_append, ih]

/-- A text without content is not there. -/
theorem piecesFrom_empty (ns ms : List Node) (pos : Option Position) :
    (piecesFrom buf [] none (ns ++ .text pos [] :: ms)).map Piece.unplaced =
      (piecesFrom buf [] none (ns ++ ms)).map Piece.unplaced := by
  refine piecesFrom_prefix (fun pending p => ?_) ns [] none
  rw [piecesFrom, List.append_nil]
  exact piecesFrom_unplaced _ _ _ _ ms

/-- Two texts are one. -/
theorem piecesFrom_merge (ns ms : List Node) (p q pos : Option Position) (before text : Text) :
    (piecesFrom buf [] none (ns ++ .text p before :: .text q text :: ms)).map Piece.unplaced =
      (piecesFrom buf [] none (ns ++ .text pos (before ++ text) :: ms)).map Piece.unplaced := by
  refine piecesFrom_prefix (fun pending p => ?_) ns [] none
  rw [piecesFrom, piecesFrom, piecesFrom, List.append_assoc]
  exact piecesFrom_unplaced _ _ _ _ ms

/-- Where a text stands does not matter. -/
theorem piecesFrom_moved (ns ms : List Node) (p q : Option Position) (text : Text) :
    (piecesFrom buf [] none (ns ++ .text p text :: ms)).map Piece.unplaced =
      (piecesFrom buf [] none (ns ++ .text q text :: ms)).map Piece.unplaced := by
  refine piecesFrom_prefix (fun pending p => ?_) ns [] none
  rw [piecesFrom, piecesFrom]
  exact piecesFrom_unplaced _ _ _ _ ms

end Code

/-! ## Contents that are known -/

namespace WorldM

/-- The step only logs, and it returns this result in every world. -/
structure Known {α : Type} (m : WorldM α) (a : α) : Prop where
  outcome : ∀ w, m.outcome w = .ok a
  logs : OnlyLogs m

theorem Known.pure {α : Type} (a : α) : Known (Pure.pure a) a := ⟨fun _ => rfl, fun _ => rfl⟩

theorem Known.returns {α : Type} {m : WorldM α} {a : α} (h : Known m a) (w : World) : ∃ w', m w = .ok a w' := by
  have hw := h.outcome w
  unfold WorldM.outcome at hw
  split at hw
  · rename_i a' w' hm
    cases hw
    exact ⟨w', hm⟩
  · cases hw

theorem Known.logs_bind {α β : Type} {m : WorldM α} {a : α} {k : α → WorldM β} (hm : Known m a)
    (hk : OnlyLogs (k a)) : OnlyLogs (m >>= k) := by
  refine Agree.onlyLogs_bind hm.logs fun a' w w₁ hreturns => ?_
  obtain ⟨w₂, hmw⟩ := hm.returns w
  cases hmw.symm.trans hreturns
  exact hk

theorem Known.outcome_bind {α β : Type} {m : WorldM α} {a : α} {k : α → WorldM β} (hm : Known m a) (w : World) :
    ∃ w', (m >>= k).outcome w = (k a).outcome w' := by
  obtain ⟨w', hmw⟩ := hm.returns w
  exact ⟨w', by simp only [WorldM.outcome, Bind.bind, EStateM.bind, hmw]⟩

theorem Known.bind {α β : Type} {m : WorldM α} {k : α → WorldM β} {a : α} {b : β} (hm : Known m a)
    (hk : Known (k a) b) : Known (m >>= k) b := by
  refine ⟨fun w => ?_, hm.logs_bind hk.logs⟩
  obtain ⟨w', hw⟩ := hm.outcome_bind (k := k) w
  exact hw.trans (hk.outcome w')

/-- After steps whose results are known only these matter. -/
theorem Known.bind_agree {α β γ δ : Type} {g : γ → δ} {m : WorldM α} {m' : WorldM β} {a : α} {b : β}
    {k : α → WorldM γ} {k' : β → WorldM γ} (hm : Known m a) (hm' : Known m' b) (hk : Agree g (k a) (k' b)) :
    Agree g (m >>= k) (m' >>= k') := by
  refine ⟨fun w w' => ?_, hm.logs_bind hk.logs.1, hm'.logs_bind hk.logs.2⟩
  obtain ⟨w₁, hw⟩ := hm.outcome_bind (k := k) w
  obtain ⟨w₁', hw'⟩ := hm'.outcome_bind (k := k') w'
  rw [hw, hw']
  exact hk.outcome w₁ w₁'

end WorldM

namespace Settings

/-- The text that a name in the file `file` means: the content that it leads to, as it is or rendered. -/
def Offers (settings : Settings) (markdown : Bool) (file name text : Text) : Prop :=
  ∃ path data, settings.Leads file name path data ∧
    (if markdown then settings.markdown data else .ok data) = .ok text

end Settings

namespace Code
open WorldM Token
variable {settings : Settings} {file name text : Text} {markdown : Bool}

/-- A content that is left for later is the text that its name means. -/
theorem externalText_known (pos : Option Position) (h : settings.Offers markdown file name text) :
    Known (externalText settings pos name file markdown) text := by
  obtain ⟨path, data, hleads, htext⟩ := h
  have hread := (Settings.leads_iff pos).mp hleads
  have hends (w : World) : ∃ log, externalText settings pos name file markdown w = .ok text { w with log } := by
    rcases hcontent : Content.read settings.files file name pos with ⟨result, tried⟩
    rw [hcontent] at hread
    cases hread
    unfold externalText
    rw [hcontent]
    cases markdown with
    | false =>
      cases htext
      cases tried <;> exact ⟨_, rfl⟩
    | true =>
      have hrender : Content.renderMarkdown settings data pos = .ok text := by
        simp only [if_true] at htext
        simp [Content.renderMarkdown, htext]
      cases tried <;> simp only [hrender] <;> exact ⟨_, rfl⟩
  refine ⟨fun w => ?_, fun w => ?_⟩
  · obtain ⟨log, hw⟩ := hends w
    simp [WorldM.outcome, hw]
  · obtain ⟨log, hw⟩ := hends w
    simp [WorldM.after, hw]

theorem resolve_append_eq (settings : Settings) (ns ms : List Node) : resolve settings (ns ++ ms) = (do
    let rs ← resolve settings ns
    return rs ++ (← resolve settings ms)) := by
  induction ns with
  | nil => simp [resolve]
  | cons n ns ih => simp [resolve, ih]

/-- Nodes between others may be exchanged if what they are resolved to has the same code there. -/
theorem ofNodes_exchange {mid mid' ms ms' : List Node} (hm : Known (resolve settings mid) ms)
    (hm' : Known (resolve settings mid') ms')
    (h : ∀ ns after, (piecesFrom settings.buffer [] none (ns ++ ms ++ after)).map Piece.unplaced =
      (piecesFrom settings.buffer [] none (ns ++ ms' ++ after)).map Piece.unplaced) (ns after : List Node) :
    Agree unplacedAll (ofNodes settings (ns ++ mid ++ after)) (ofNodes settings (ns ++ mid' ++ after)) := by
  have hself (ns : List Node) : Agree bareAll (resolve settings ns) (resolve settings ns) :=
    (resolve_bare settings ns).symm.trans (resolve_bare settings ns)
  have hopen (mid : List Node) : ofNodes settings (ns ++ mid ++ after) = (do
      let rs ← resolve settings ns
      let ms ← resolve settings mid
      let as ← resolve settings after
      return lower settings.buffer (rs ++ ms ++ as)) := by
    simp [ofNodes, resolve_append_eq]
  rw [hopen, hopen]
  refine (hself ns).bind fun rs rs' hrs => hm.bind_agree hm' ?_
  refine (hself after).bind fun as as' has => .pure ?_
  have hbare : bareAll (rs ++ ms' ++ as) = bareAll (rs' ++ ms' ++ as') := by simp [hrs, has]
  refine (join_unplaced (h rs as)).trans (join_unplaced ?_)
  rw [← piecesFrom_bare settings.buffer _ [] none none, hbare, piecesFrom_bare settings.buffer _ [] none none]

theorem resolve_cons_known {n m : Node} {ns ms : List Node} (hn : Known (resolveNode settings n) m)
    (hns : Known (resolve settings ns) ms) : Known (resolve settings (n :: ns)) (m :: ms) := by
  simp only [resolve]
  exact hn.bind (hns.bind (.pure _))

theorem resolve_nil_known (settings : Settings) : Known (resolve settings []) [] := .pure _

theorem resolveNode_text_known (settings : Settings) (pos : Option Position) (text : Text) :
    Known (resolveNode settings (.text pos text)) (.text pos text) := .pure _

theorem resolveNode_external_known (pos : Option Position) (h : settings.Offers markdown file name text) :
    Known (resolveNode settings (.external pos name file markdown)) (.text pos text) := by
  simp only [resolveNode]
  exact (externalText_known pos h).bind (.pure _)

/-- If all of a text is added, the region has the same code as with another node that stands for the text. -/
theorem ofNodes_pushText {s : State} {n : Node} {pos : Option Position}
    (hn : Known (resolveNode settings n) (.text pos text)) (hwhole : s.addsWhole text = true) (world : World)
    (p : Option Position) (after : List Node) :
    Agree unplacedAll (ofNodes settings (({ s with world }.pushText p text).sink.reverse ++ after))
      (ofNodes settings (s.sink.reverse ++ n :: after)) := by
  have hnode := resolve_cons_known hn (resolve_nil_known settings)
  have htrimmed : ({ s with world } : State).trimmed text = s.trimmed text := rfl
  simp only [State.addsWhole, Bool.or_eq_true, decide_eq_true_eq, Bool.and_eq_true, Bool.not_eq_true'] at hwhole
  rw [State.pushText_eq, htrimmed]
  by_cases hempty : (s.trimmed text).1.isEmpty = true
  · rw [if_pos hempty]
    have htext : text = [] := by
      rcases hwhole with hsame | ⟨hsome, -⟩
      · rw [← hsame]
        simpa using hempty
      · rw [hempty] at hsome
        cases hsome
    subst htext
    have h := ofNodes_exchange (resolve_nil_known settings) hnode (fun ns after => ?_) s.sink.reverse after
    · simpa using h
    · simpa using (piecesFrom_empty ns after pos).symm
  · rw [if_neg hempty]
    split
    · rename_i q before rest hsink
      have hsink' : s.sink = .text q before :: rest := hsink
      have hsame : (s.trimmed text).1 = text := by
        rcases hwhole with hsame | ⟨-, hhead⟩
        · exact hsame
        · simp [hsink', isText] at hhead
      have hboth := resolve_cons_known (resolveNode_text_known settings q before) hnode
      have hone (span : Option Position) :=
        resolve_cons_known (resolveNode_text_known settings span (before ++ text)) (resolve_nil_known settings)
      rw [hsame, hsink']
      have h := ofNodes_exchange (hone (q.map (·.withStop (p.getD .zero).stop))) hboth (fun ns after => ?_)
        rest.reverse after
      · simpa using h
      · simpa using (piecesFrom_merge ns after _ _ _ _ _).symm
    · have hone := resolve_cons_known (resolveNode_text_known settings p text) (resolve_nil_known settings)
      have h := ofNodes_exchange hone hnode (fun ns after => ?_) s.sink.reverse after
      · simpa using h
      · simpa using piecesFrom_moved ns after p pos text

/-- Nodes that are written while no line is being trimmed have the code that they have side by side. -/
theorem ofNodes_written (settings : Settings) {s : State} (h : s.trimLine = false) (ns : List Node) :
    Agree unplacedAll (ofNodes settings (ns.foldl State.push s).sink.reverse)
      (ofNodes settings (s.sink.reverse ++ ns)) := by
  induction ns generalizing s with
  | nil =>
    rw [List.append_nil]
    exact ofNodes_unplaced settings rfl
  | cons n ns ih =>
    refine (ih (s.push_untrimmed h n)).trans ?_
    cases n with
    | text pos text =>
      have hwhole : s.addsWhole text = true := by simp [State.addsWhole, State.trimmed, h]
      exact ofNodes_pushText (resolveNode_text_known settings pos text) hwhole s.world pos ns
    | _ =>
      simp only [State.push, List.reverse_cons, List.append_assoc, List.singleton_append]
      exact ofNodes_unplaced settings rfl

end Code

/-! ## The directives -/

/-- The kind of a content that is written as it is or as Markdown. -/
def ContentKind.ofMarkdown (markdown : Bool) : ContentKind := if markdown then .markdown else .html

/-- If a fragment is kept for a name, it is this text. -/
def State.Keeps (s : State) (markdown : Bool) (name text : Text) : Prop :=
  ∀ c path fallback f, s.world.cache = some c → Path.resolve? s.path name = some (path, fallback) →
    c.get? (Cache.key (.ofMarkdown markdown) path) = some f → ∃ pos, f.nodes = [.text pos text]

namespace Directive
variable {t : Tools} {s u : State} {name text : Text} {pos : Option Position} {markdown : Bool}

/-- Writes the content of a file, as it is or as Markdown, which is read at once or left for later. -/
def contentFile (markdown cached : Bool) : Tools → Ident → ParseM Outcome :=
  if markdown then markdownFile cached else htmlFile cached

theorem argument_congr {id : Ident} {expecting : String} {tok : Token} (h : Returns (argument id expecting) s tok u)
    (id' : Ident) : Returns (argument id' expecting) s tok u := by
  unfold argument at h ⊢
  obtain ⟨next, s₁, hpeek, h⟩ := h.bind
  refine hpeek.andThen ?_
  cases next with
  | none => exact h.fail.elim
  | some tok' =>
    dsimp only at h ⊢
    split
    · rename_i hglued
      rw [if_pos hglued] at h
      obtain ⟨_, _, hfail, -⟩ := h.bind
      exact hfail.unexpected.elim
    · rename_i hglued
      rw [if_neg hglued] at h
      exact h

/-- What a path is read from does not depend on the directive before it. -/
theorem pathArgument_congr {id : Ident} {out : Text × Option Position} (h : Returns (pathArgument id) s out u)
    (id' : Ident) : Returns (pathArgument id') s out u := by
  unfold pathArgument at h ⊢
  obtain ⟨tok, s₁, hargument, h⟩ := h.bind
  refine (argument_congr hargument id').andThen ?_
  have hbare (h : Returns (do
      let ts := pathTokens true (← rest)
      if ts.isEmpty then unexpected tok (.afterDirective id.name (utf8 "path"))
      skip ts.length
      return (Token.sourceOf ts, tok.pos)) s₁ out u) : Returns (do
      let ts := pathTokens true (← rest)
      if ts.isEmpty then unexpected tok (.afterDirective id'.name (utf8 "path"))
      skip ts.length
      return (Token.sourceOf ts, tok.pos)) s₁ out u := by
    obtain ⟨ts, s₂, hrest, h⟩ := h.bind
    refine hrest.andThen ?_
    dsimp only at h ⊢
    split
    · rename_i hempty
      rw [if_pos hempty] at h
      obtain ⟨_, _, hfail, -⟩ := h.bind
      exact hfail.unexpected.elim
    · rename_i hempty
      rw [if_neg hempty] at h
      exact h
  cases tok with
  | literal l =>
    dsimp only at h ⊢
    split
    · rename_i hstring
      rw [if_pos hstring] at h
      exact h
    · rename_i hstring
      rw [if_neg hstring] at h
      exact hbare h
  | ident | punct | group => exact hbare h

/-- A content that is left for later is a node of its own. -/
theorem contentFile_later {id : Ident} (hpath : Returns (pathArgument id) s (name, pos) u)
    (h : t.settings.Offers markdown u.path name text) :
    Returns (contentFile markdown false t id) s .next (u.push (.external pos name u.path markdown)) := by
  obtain ⟨path, data, hleads, -⟩ := h
  obtain ⟨hvalid, -, resolved, fallback, hresolve, -⟩ := Settings.leads_cases hleads
  have hcheck : Returns (checkName name pos) u () u := by
    simp only [checkName, hvalid, Bool.not_true, Bool.false_eq_true, if_false, Returns, bind_get, hresolve]
    rfl
  have hlater : Returns (laterContent name pos markdown) u .next (u.push (.external pos name u.path markdown)) :=
    hcheck.andThen rfl
  cases markdown with
  | false => exact hpath.andThen hlater
  | true => exact hpath.andThen hlater

/-- With a cache or without one, a content that is read at once is the text that its name means. -/
theorem cachedContent_offered (h : t.settings.Offers markdown u.path name text)
    (hkeeps : u.Keeps markdown name text) : ∃ f world p,
      Returns (cachedContent t (.ofMarkdown markdown) name pos (convert t pos (.ofMarkdown markdown))) u f
        { u with world } ∧ f.nodes = [.text p text] := by
  obtain ⟨path, data, hleads, htext⟩ := h
  have hconvert (v : State) :
      Returns (convert t pos (.ofMarkdown markdown) data path) v { nodes := [.text pos text] } v := by
    cases markdown with
    | false =>
      cases htext
      rfl
    | true =>
      simp only [if_true] at htext
      simp only [ContentKind.ofMarkdown, if_true, convert, markdownText, Content.renderMarkdown, htext]
      rfl
  have hfresh {v : State} (hv : v.path = u.path) : ∃ world,
      Returns (freshContent t name pos (convert t pos (.ofMarkdown markdown))) v { nodes := [.text pos text] }
        { v with world } := by
    obtain ⟨log, hread⟩ := Registry.freshContent_leads pos (hv ▸ hleads)
    exact ⟨_, hread.trans (hconvert _)⟩
  cases hcache : u.world.cache with
  | none =>
    obtain ⟨world, hreturns⟩ := hfresh rfl
    refine ⟨{ nodes := [.text pos text] }, world, pos, ?_, rfl⟩
    rw [Returns, Pairing.cachedContent_of_no_cache hcache]
    exact hreturns
  | some c =>
    obtain ⟨hvalid, -, resolved, fallback, hresolve, -⟩ := Settings.leads_cases hleads
    simp only [Returns, Registry.cachedContent_of_cache hcache, hvalid, if_true, hresolve]
    cases hget : c.get? (Cache.key (.ofMarkdown markdown) resolved) with
    | some f =>
      obtain ⟨p, hf⟩ := hkeeps c resolved fallback f hcache hresolve hget
      exact ⟨f, _, p, rfl, hf⟩
    | none =>
      obtain ⟨log, hnote⟩ : ∃ log,
        Returns (note "cache miss" [("key", Cache.key (.ofMarkdown markdown) resolved)]) u ()
          { u with world := { u.world with log } } := ⟨_, rfl⟩
      obtain ⟨world, hreturns⟩ := hfresh (v := { u with world := { u.world with log } }) rfl
      exact ⟨{ nodes := [.text pos text] }, _, pos, hnote.andThen (hreturns.andThen rfl), rfl⟩

/-- A content that is read at once is a text. -/
theorem contentFile_cached {id : Ident} (hpath : Returns (pathArgument id) s (name, pos) u)
    (h : t.settings.Offers markdown u.path name text) (hkeeps : u.Keeps markdown name text) :
    ∃ world p, Returns (contentFile markdown true t id) s .next ({ u with world }.pushText p text) := by
  have hoffered := @cachedContent_offered t u name text pos markdown h hkeeps
  obtain ⟨f, world, p, hcontent, hf⟩ := hoffered
  have hemit : Returns (emit f.nodes) { u with world } () ({ u with world }.pushText p text) := by
    rw [hf]
    rfl
  refine ⟨world, p, ?_⟩
  cases markdown with
  | false => exact hpath.andThen (hcontent.andThen (hemit.andThen rfl))
  | true => exact hpath.andThen (hcontent.andThen (hemit.andThen rfl))

/-- A file whose name is next, with a statement behind it. -/
def contentSample : State where
  world := {}
  path := utf8 "index.rhtml"
  includers := []
  stream := .ofTokens (Token.ofSource (utf8 " \"p.html\"@if a \x7b\x7d"))

/-- The tools of a compilation in which the file says `X.`. -/
def contentTools : Tools :=
  Registry.standard.tools { files := some { entries := [(utf8 "p.html", utf8 "X.")] }, markdown := .ok }
    (fun _ _ => return { nodes := [] }) 1

end Directive

end Atmark
