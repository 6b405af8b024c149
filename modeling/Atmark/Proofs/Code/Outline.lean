import Atmark.Proofs.Code.Events
import Atmark.Proofs.Token.Unplaced

/-! What the code of nodes does. The outline of a list of nodes is written down directly: texts and parts
of tags that follow each other are one write, expressions are calls that write their value, code is itself
(`outline`). Lowering inserts semicolons only between code and the calls after it, so that once neighbouring
calls are joined the code does what the outline says, semicolons apart (`reading_ofNodes`). -/
namespace Atmark

namespace Node

/-- The node is no identifier with the given name. -/
def avoids (name : Text) : Node → Prop
  | .ident t => t.name ≠ name
  | _ => True

/-- The node is no content that is left for later. -/
def isRead : Node → Prop
  | .external .. => False
  | _ => True

end Node

namespace Code
open Node

/-- The text of a content that is left for later, if it can be read. -/
def externalText? (settings : Settings) (pos : Option Position) (path includer : Text)
    (markdown : Bool) : Option Text :=
  match (Content.read settings.files includer path pos).1 with
  | .error _ => none
  | .ok (data, _) =>
    if markdown then (Content.renderMarkdown settings data pos).toOption else some data

/-- The node is no content that is left for later and cannot be read. -/
def CanBeRead (settings : Settings) : Node → Prop
  | .external pos path includer markdown =>
    (externalText? settings pos path includer markdown).isSome = true
  | _ => True

/-! ## The outline of nodes -/

/-- A text written before events, if there is any. -/
def withText (t : Text) (es : List Event) : List Event := if t.isEmpty then es else writeBefore t es

/-- The event without the white space before it. -/
def Event.unspaced : Event → Event
  | .write a => .write a
  | .token t => .token (t.withSpace [])
  | .group f es => .group { f with space := [] } es

/-- The events without the white space before the first. -/
def unspacedEvents : List Event → List Event
  | [] => []
  | e :: es => e.unspaced :: es

/-- The call that writes the value of an expression. -/
def valueEvents (buf : Text) (expr : List Event) (pos : Option Position) : List Event :=
  let pos := pos.or (some .origin)
  [.token (.word pos buf), .token (.mark pos '.'), .token (.word pos (utf8 "WriteValue")),
    .group ⟨pos, [], .parenthesis, []⟩ (unspacedEvents expr), .token (.mark pos ';')]

/-- The call that defines a section. -/
def defineEvents (buf : Text) (pos : Option Position) (name : Text) (body : List Event) :
    List Event :=
  let params : List Token := [.word pos buf, .punct ⟨pos, utf8 " ", '*'⟩, .word pos runtimeName,
    .mark pos '.', .word pos (utf8 "Buffer")]
  let args : List Event := [.token (.literal (.ofText pos name)), .token (.mark pos ','),
    .token (.ident ⟨pos, utf8 " ", utf8 "func"⟩),
    .group ⟨pos, [], .parenthesis, []⟩ (params.map .token), .group ⟨pos, utf8 " ", .brace, []⟩ body]
  [.token (.word pos Directive.contextName), .token (.mark pos '.'),
    .token (.word pos (utf8 "DefineSection")), .group ⟨pos, [], .parenthesis, []⟩ args,
    .token (.mark pos ';')]

/-- Makes a new buffer. -/
def startEvents (buf : Text) (pos : Option Position) : List Event :=
  [.token (.word pos buf), .token (.punct ⟨pos, utf8 " ", ':'⟩), .token (.mark pos '='),
    .token (.ident ⟨pos, utf8 " ", runtimeName⟩), .token (.mark pos '.'),
    .token (.word pos (utf8 "NewBuffer")), .group ⟨pos, [], .parenthesis, []⟩ [],
    .token (.mark pos ';')]

/-- Returns what was written to the buffer, as a value of a type. -/
def stopEvents (buf : Text) (type : Ident) : List Event :=
  let pos := type.pos
  [.token (.word pos (utf8 "return")), .token (.word pos type.name),
    .group ⟨pos, [], .parenthesis, []⟩ [.token (.word pos buf), .token (.mark pos '.'),
      .token (.word pos (utf8 "String")), .group ⟨pos, [], .parenthesis, []⟩ []]]

/-- The type and the body of a function that returns the markup that is written in it. -/
def closureEvents (buf : Text) (type : Ident) (f : Frame) (body : List Event) : List Event :=
  [.token (.ident ⟨type.pos, utf8 " ", type.name⟩),
    .group ⟨f.pos, utf8 " ", .brace, []⟩ (startEvents buf type.pos ++ (body ++ stopEvents buf type))]

mutual

/-- What a node does, before other events. -/
def outlineNode (settings : Settings) : Node → List Event → List Event
  | .ident t, rest => .token (.ident t) :: rest
  | .literal t, rest => .token (.literal t) :: rest
  | .punct t, rest => .token (.punct t) :: rest
  | .group f ns, rest => .group f (outline settings ns) :: rest
  | .external pos path includer markdown, rest =>
    withText ((externalText? settings pos path includer markdown).getD []) rest
  | .attrValue pos v e, rest =>
    if v.run.isEmpty && !e.isEmpty then
      withText [0x22] (valueEvents settings.buffer (outline settings e) pos ++ withText [0x22] rest)
    else withText (staticText v) rest
  | .write pos e, rest => valueEvents settings.buffer (outline settings e) pos ++ rest
  | .closure type f ns, rest => closureEvents settings.buffer type f (outline settings ns) ++ rest
  | .define pos name ns, rest => defineEvents settings.buffer pos name (outline settings ns) ++ rest
  | n, rest => withText n.markup rest

/-- What nodes do: the static texts between expressions and code are one write. -/
def outline (settings : Settings) : List Node → List Event
  | [] => []
  | n :: ns => outlineNode settings n (outline settings ns)

end

/-! ## Events apart from semicolons -/

/-- A semicolon. -/
def Event.isSemicolon : Event → Bool
  | .token t => t.isPunct ';'
  | _ => false

mutual

/-- The event without the semicolons in it. -/
def Event.withoutSemicolons : Event → Event
  | .group f es => .group f (Code.withoutSemicolons es)
  | e => e

/-- The events without semicolons, at every depth. -/
def withoutSemicolons : List Event → List Event
  | [] => []
  | e :: es =>
    if e.isSemicolon then withoutSemicolons es else e.withoutSemicolons :: withoutSemicolons es

end

/-- The events are the same but for semicolons, and so are the first ones, which no semicolon precedes. -/
structure Alike (es fs : List Event) : Prop where
  head : es.head?.map Event.withoutSemicolons = fs.head?.map Event.withoutSemicolons
  all : withoutSemicolons es = withoutSemicolons fs

theorem withoutSemicolons_append (es fs : List Event) :
    withoutSemicolons (es ++ fs) = withoutSemicolons es ++ withoutSemicolons fs := by
  induction es with
  | nil => rfl
  | cons e es ih =>
    rw [List.cons_append, withoutSemicolons, withoutSemicolons, ih]
    split
    · rfl
    · rw [List.cons_append]

/-- Semicolons in a group of a list do not matter. -/
theorem withoutSemicolons_group (es fs : List Event) (f : Frame) {xs ys : List Event}
    (h : withoutSemicolons xs = withoutSemicolons ys) :
    withoutSemicolons (es ++ .group f xs :: fs) = withoutSemicolons (es ++ .group f ys :: fs) := by
  rw [withoutSemicolons_append, withoutSemicolons_append, withoutSemicolons, withoutSemicolons,
    Event.withoutSemicolons, Event.withoutSemicolons, h]
  rfl

theorem isSemicolon_withoutSemicolons (e : Event) : e.withoutSemicolons.isSemicolon = e.isSemicolon := by
  cases e <;> rfl

namespace Alike

theorem refl (es : List Event) : Alike es es := ⟨rfl, rfl⟩

theorem nil_iff {fs : List Event} : Alike [] fs ↔ fs = [] := by
  constructor
  · intro h
    cases fs with
    | nil => rfl
    | cons f fs => cases h.head
  · rintro rfl
    exact refl []

theorem cons_iff {e : Event} {es fs : List Event} :
    Alike (e :: es) fs ↔ ∃ f fs', fs = f :: fs' ∧ e.withoutSemicolons = f.withoutSemicolons ∧
      withoutSemicolons es = withoutSemicolons fs' := by
  constructor
  · rintro ⟨hhead, hall⟩
    cases fs with
    | nil => cases hhead
    | cons f fs =>
      have hef : e.withoutSemicolons = f.withoutSemicolons := by simpa using hhead
      have hsemi : e.isSemicolon = f.isSemicolon := by
        rw [← isSemicolon_withoutSemicolons, hef, isSemicolon_withoutSemicolons]
      refine ⟨f, fs, rfl, hef, ?_⟩
      rw [withoutSemicolons, withoutSemicolons, hsemi] at hall
      split at hall
      · exact hall
      · exact (List.cons.inj hall).2
  · rintro ⟨f, fs', rfl, hef, hall⟩
    have hsemi : e.isSemicolon = f.isSemicolon := by
      rw [← isSemicolon_withoutSemicolons, hef, isSemicolon_withoutSemicolons]
    refine ⟨by simp [hef], ?_⟩
    rw [withoutSemicolons, withoutSemicolons, hsemi, hef, hall]

/-- Semicolons may be added after events. -/
theorem append {es fs gs hs sep : List Event} (h : Alike es fs) (hne : es ≠ [])
    (h' : Alike gs hs) (hsep : withoutSemicolons sep = []) : Alike (es ++ (sep ++ gs)) (fs ++ hs) := by
  cases es with
  | nil => exact absurd rfl hne
  | cons e es =>
    obtain ⟨f, fs', rfl, hef, hall⟩ := cons_iff.mp h
    rw [List.cons_append]
    refine cons_iff.mpr ⟨f, fs' ++ hs, rfl, hef, ?_⟩
    rw [withoutSemicolons_append, withoutSemicolons_append, withoutSemicolons_append, hsep, hall,
      h'.all, List.nil_append]

theorem writeBefore {es fs : List Event} (h : Alike es fs) (t : Text) :
    Alike (writeBefore t es) (Code.writeBefore t fs) := by
  cases es with
  | nil =>
    rw [nil_iff.mp h]
    exact refl _
  | cons e es =>
    obtain ⟨f, fs', rfl, hef, hall⟩ := cons_iff.mp h
    cases e <;> cases f <;> simp only [Event.withoutSemicolons, reduceCtorEq] at hef
    · cases hef
      exact cons_iff.mpr ⟨_, _, rfl, rfl, hall⟩
    · exact cons_iff.mpr ⟨_, _, rfl, rfl, h.all⟩
    · exact cons_iff.mpr ⟨_, _, rfl, rfl, h.all⟩

theorem unspacedEvents {es fs : List Event} (h : Alike es fs) :
    Alike (unspacedEvents es) (Code.unspacedEvents fs) := by
  cases es with
  | nil =>
    rw [nil_iff.mp h]
    exact refl _
  | cons e es =>
    obtain ⟨f, fs', rfl, hef, hall⟩ := cons_iff.mp h
    refine cons_iff.mpr ⟨f.unspaced, fs', rfl, ?_, hall⟩
    cases e <;> cases f <;> simp_all [Event.withoutSemicolons, Event.unspaced]

end Alike

/-! ## Code that holds no call on the buffer -/

variable {buf : Text}

/-- No call that writes a text to `buf` starts in the tokens, whatever follows them. -/
def Inert (buf : Text) : List Token → Prop
  | [] => True
  | t :: ts => (∀ us, written? buf (t :: (ts ++ us)) = none) ∧ Inert buf ts

/-- The last one of the tokens, or of those before them, is a dot. -/
def endsWithDot (last : Option Token) : Bool := last.any (·.isPunct '.')

theorem readFrom_inert {ts : List Token} (h : Inert buf ts) (last : Option Token) (us : List Token) :
    readFrom buf (endsWithDot last) 0 (ts ++ us) =
      ts.map (Event.ofToken buf) ++ readFrom buf (endsWithDot (ts.getLast?.or last)) 0 us := by
  induction ts generalizing last with
  | nil => rfl
  | cons t ts ih =>
    have hlast : (t :: ts).getLast?.or last = ts.getLast?.or (some t) := by
      rw [List.getLast?_cons]
      cases ts.getLast? <;> rfl
    have hread : readFrom buf (t.isPunct '.') 0 (ts ++ us) = _ := ih h.2 (some t)
    rw [List.cons_append, readFrom_token _ (.inr (h.1 us)), hread, hlast, List.map_cons,
      List.cons_append]

theorem absorbsFrom_inert {ts : List Token} (h : Inert buf ts) (last : Option Token)
    (us : List Token) : absorbsFrom buf (endsWithDot last) (ts ++ us) =
      absorbsFrom buf (endsWithDot (ts.getLast?.or last)) us := by
  induction ts generalizing last with
  | nil => rfl
  | cons t ts ih =>
    have hlast : (t :: ts).getLast?.or last = ts.getLast?.or (some t) := by
      rw [List.getLast?_cons]
      cases ts.getLast? <;> rfl
    have hread : absorbsFrom buf (t.isPunct '.') (ts ++ us) = _ := ih h.2 (some t)
    rw [List.cons_append, absorbsFrom, h.1 us, hread, hlast]
    simp

theorem absorbsBelow_append (ts us : List Token) :
    absorbsBelow buf (ts ++ us) = (absorbsBelow buf ts || absorbsBelow buf us) := by
  induction ts with
  | nil => rfl
  | cons t ts ih => rw [List.cons_append, absorbsBelow, absorbsBelow, ih, Bool.or_assoc]

theorem inert_ident {t : Ident} (h : t.name ≠ buf) : Inert buf [.ident t] := by
  refine ⟨fun us => ?_, trivial⟩
  unfold written?
  split
  · rename_i heq
    cases heq
    rw [if_neg (by simp [h])]
  · rfl

/-- A call of another method of the buffer. -/
theorem inert_call {method : Text} (h : method ≠ utf8 "WriteLiteral") (pos : Option Position)
    (receiver : Text) (args : List Token) : Inert buf [.word pos receiver, .mark pos '.',
      .word pos method, .enclose pos .parenthesis args, .mark pos ';'] := by
  refine ⟨fun us => ?_, fun _ => rfl, fun _ => rfl, fun _ => rfl, fun _ => rfl, trivial⟩
  unfold written? Token.word Token.mark Token.enclose
  split
  · rename_i heq
    cases heq
    rw [if_neg (by simp [h])]
  · rfl

/-! ## Pieces -/

/-- The piece holds no call on the buffer, and does what the events say. -/
structure Piece.Copies (buf : Text) (p : Piece) (es : List Event) : Prop where
  inert : Inert buf p.tokens
  nonempty : p.tokens ≠ []
  apart : absorbsBelow buf p.tokens = false
  does : Alike (p.tokens.map fun t => (Event.ofToken buf t).joined) es

/-- The pieces are calls that write a text and others, and do what the events say. -/
inductive Do (buf : Text) : List Piece → List Event → Prop
  | nil : Do buf [] []
  | text {ps : List Piece} {es : List Event} (t : Text) (pos : Option Position) :
      Do buf ps es → Do buf (writeText buf t pos :: ps) (writeBefore t es)
  | code {p : Piece} {ps : List Piece} {es fs : List Event} :
      p.Copies buf es → Do buf ps fs → Do buf (p :: ps) (es ++ fs)

/-- What the pieces do after the token `last`, with neighbouring writes as one. -/
def pieceEvents (buf : Text) (last : Option Token) (ps : List Piece) : List Event :=
  joinWrites (joinedEach (readFrom buf (endsWithDot last) 0 (joinFrom last ps)))

theorem textCall_tokens (t : Text) (pos : Option Position) :
    (textCall buf (t, pos)).tokens = (writeText buf t pos).tokens := rfl

theorem joinedEach_map (ts : List Token) (es : List Event) :
    joinedEach (ts.map (Event.ofToken buf) ++ es) =
      (ts.map fun t => (Event.ofToken buf t).joined) ++ joinedEach es := by
  induction ts with
  | nil => rfl
  | cons t ts ih => rw [List.map_cons, List.cons_append, joinedEach, ih, List.map_cons, List.cons_append]

theorem joinWrites_joined (ts : List Token) (es : List Event) :
    joinWrites ((ts.map fun t => (Event.ofToken buf t).joined) ++ es) =
      (ts.map fun t => (Event.ofToken buf t).joined) ++ joinWrites es := by
  induction ts with
  | nil => rfl
  | cons t ts ih =>
    rw [List.map_cons, List.cons_append, List.cons_append]
    cases t <;> simp [Event.ofToken, Event.joined, joinWrites, ih]

/-- The semicolon, if any, that parts a piece from the token before it. -/
def separator (last : Option Token) (p : Piece) : List Token :=
  if p.isStatement && last.any (!·.isPunct ';') then
    [Token.mark (p.tokens.head?.bind Token.pos) ';']
  else []

theorem joinFrom_cons (last : Option Token) (p : Piece) (ps : List Piece) :
    joinFrom last (p :: ps) =
      separator last p ++ (p.tokens ++ joinFrom (p.tokens.getLast?.or last) ps) := by
  rw [joinFrom, ← List.append_assoc]
  rfl

theorem separator_cases (last : Option Token) (p : Piece) :
    (separator last p = [] ∧ (p.isStatement = true → last.all (·.isPunct ';') = true)) ∨
      ((∃ pos, separator last p = [.mark pos ';']) ∧ last.all (·.isPunct ';') = false) := by
  unfold separator
  cases last with
  | none => exact .inl ⟨by simp, fun _ => rfl⟩
  | some t =>
    cases hp : p.isStatement <;> cases ht : t.isPunct ';'
    case true.false => exact .inr ⟨⟨p.tokens.head?.bind Token.pos, by simp [ht]⟩, by simp [ht]⟩
    all_goals simp [ht]

theorem endsWithDot_of_all {last : Option Token} (h : last.all (·.isPunct ';') = true) :
    endsWithDot last = false := by
  cases last with
  | none => rfl
  | some t =>
    cases t with
    | punct p =>
      have hp : p.char = ';' := by simpa [Token.isPunct] using h
      simp [endsWithDot, Token.isPunct, hp]
    | _ => cases h

/-- The events of a semicolon that parts pieces. -/
structure Parts (last : Option Token) (sep : List Event) : Prop where
  semicolons : withoutSemicolons sep = []
  needed : last.all (·.isPunct ';') = true → sep = []

/-- What comes after a separator does the same after any token, if it does so unless the token calls for
a separator. -/
theorem pieceEvents_separator (last : Option Token) (p : Piece) (ps : List Piece) {es : List Event}
    (h : (p.isStatement = true → last.all (·.isPunct ';') = true) →
      joinWrites (joinedEach (readFrom buf (endsWithDot last) 0
        (p.tokens ++ joinFrom (p.tokens.getLast?.or last) ps))) = es)
    (hfirst : joinWrites (joinedEach (readFrom buf false 0
      (p.tokens ++ joinFrom (p.tokens.getLast?.or last) ps))) = es) :
    ∃ sep, Parts last sep ∧ pieceEvents buf last (p :: ps) = sep ++ es := by
  rcases separator_cases last p with ⟨hsep, hall⟩ | ⟨⟨pos, hsep⟩, hall⟩
  · refine ⟨[], ⟨rfl, fun _ => rfl⟩, ?_⟩
    rw [pieceEvents, joinFrom_cons, hsep, List.nil_append, h hall, List.nil_append]
  · refine ⟨[.token (.mark pos ';')], ⟨rfl, fun h => ?_⟩, ?_⟩
    · rw [hall] at h
      cases h
    · rw [pieceEvents, joinFrom_cons, hsep, List.singleton_append, readFrom_token _ (.inr rfl)]
      exact congrArg _ hfirst

/-- A piece without calls does the same after any token, once it is parted from it. -/
theorem pieceEvents_copies {p : Piece} {es : List Event} (hp : p.Copies buf es) (last : Option Token)
    (ps : List Piece) : ∃ sep, Parts last sep ∧
      pieceEvents buf last (p :: ps) = sep ++ ((p.tokens.map fun t => (Event.ofToken buf t).joined) ++
        pieceEvents buf p.tokens.getLast? ps) := by
  obtain ⟨t, ht⟩ := Option.isSome_iff_exists.mp (List.getLast?_isSome.mpr hp.nonempty)
  have hany (last' : Option Token) : joinWrites (joinedEach (readFrom buf (endsWithDot last') 0
      (p.tokens ++ joinFrom (p.tokens.getLast?.or last) ps))) =
      (p.tokens.map fun t => (Event.ofToken buf t).joined) ++ pieceEvents buf p.tokens.getLast? ps := by
    rw [readFrom_inert hp.inert, joinedEach_map, joinWrites_joined, ht]
    rfl
  exact pieceEvents_separator last p ps (fun _ => hany last) (hany none)

theorem pieceEvents_text (t : Text) (pos : Option Position) (last : Option Token) (ps : List Piece) :
    ∃ sep, Parts last sep ∧ pieceEvents buf last (writeText buf t pos :: ps) =
      sep ++ writeBefore t (pieceEvents buf (some (.mark (pos.or (some .origin)) ';')) ps) := by
  have hfirst : joinWrites (joinedEach (readFrom buf false 0 ((writeText buf t pos).tokens ++
      joinFrom ((writeText buf t pos).tokens.getLast?.or last) ps))) =
      writeBefore t (pieceEvents buf (some (.mark (pos.or (some .origin)) ';')) ps) := by
    rw [← textCall_tokens, readFrom_call (textCall_writes buf (t, pos))]
    rfl
  refine pieceEvents_separator last _ ps (fun h => ?_) hfirst
  rw [endsWithDot_of_all (h rfl), hfirst]

/-- Pieces do the same after any token, once they are parted from it. -/
theorem Do.after {ps : List Piece} {es : List Event} (h : Do buf ps es) (last : Option Token) :
    ∃ sep, Parts last sep ∧ pieceEvents buf last ps = sep ++ pieceEvents buf none ps := by
  cases h with
  | nil => exact ⟨[], ⟨rfl, fun _ => rfl⟩, rfl⟩
  | text t pos _ =>
    obtain ⟨sep, hsep, hlast⟩ := @pieceEvents_text buf t pos last _
    obtain ⟨sep₀, hsep₀, hnone⟩ := @pieceEvents_text buf t pos none _
    exact ⟨sep, hsep, by rw [hlast, hnone, hsep₀.needed rfl, List.nil_append]⟩
  | code hp _ =>
    obtain ⟨sep, hsep, hlast⟩ := pieceEvents_copies hp last _
    obtain ⟨sep₀, hsep₀, hnone⟩ := pieceEvents_copies hp none _
    exact ⟨sep, hsep, by rw [hlast, hnone, hsep₀.needed rfl, List.nil_append]⟩

/-- Joined, pieces do what their events say. -/
theorem Do.alike {ps : List Piece} {es : List Event} (h : Do buf ps es) :
    Alike (pieceEvents buf none ps) es := by
  induction h with
  | nil => exact .refl []
  | text t pos hps ih =>
    obtain ⟨sep, hsep, hnone⟩ := @pieceEvents_text buf t pos none _
    obtain ⟨sep', hsep', hrest⟩ := hps.after (some (.mark (pos.or (some .origin)) ';'))
    rw [hnone, hsep.needed rfl, hrest, hsep'.needed rfl]
    exact ih.writeBefore t
  | code hp hps ih =>
    obtain ⟨sep, hsep, hnone⟩ := pieceEvents_copies hp none _
    obtain ⟨sep', hsep', hrest⟩ := hps.after _
    rw [hnone, hsep.needed rfl, hrest]
    exact hp.does.append (by simpa using hp.nonempty) ih hsep'.semicolons

/-- In pieces, no call that is selected from something takes over the text of another one. -/
theorem Do.absorbsFrom {ps : List Piece} {es : List Event} (h : Do buf ps es) (last : Option Token) :
    absorbsFrom buf (endsWithDot last) (joinFrom last ps) = false := by
  induction h generalizing last with
  | nil => rfl
  | @text ps es t pos hps ih =>
    have hcall : Code.absorbsFrom buf false ((writeText buf t pos).tokens ++
        joinFrom ((writeText buf t pos).tokens.getLast?.or last) ps) = false := by
      rw [← textCall_tokens, absorbsFrom_call false (textCall_writes buf (t, pos)), Bool.false_and,
        Bool.false_or]
      exact ih (some (.mark (pos.or (some .origin)) ';'))
    rw [joinFrom_cons]
    rcases separator_cases last (writeText buf t pos) with ⟨hsep, hall⟩ | ⟨⟨at', hsep⟩, -⟩
    · rw [hsep, List.nil_append, endsWithDot_of_all (hall rfl), hcall]
    · have hmark : Inert buf [.mark at' ';'] := ⟨fun _ => rfl, trivial⟩
      rw [hsep, absorbsFrom_inert hmark]
      exact hcall
  | code hp hps ih =>
    rw [joinFrom_cons]
    rcases separator_cases last _ with ⟨hsep, -⟩ | ⟨⟨pos, hsep⟩, -⟩
    · rw [hsep, List.nil_append, absorbsFrom_inert hp.inert, ih]
    · have hmark : Inert buf [.mark pos ';'] := ⟨fun _ => rfl, trivial⟩
      rw [hsep, absorbsFrom_inert hmark, absorbsFrom_inert hp.inert]
      obtain ⟨t, ht⟩ := Option.isSome_iff_exists.mp (List.getLast?_isSome.mpr hp.nonempty)
      have := ih (some t)
      rw [ht]
      exact this

theorem Do.absorbsBelow {ps : List Piece} {es : List Event} (h : Do buf ps es) (last : Option Token) :
    absorbsBelow buf (joinFrom last ps) = false := by
  have hseparator (last : Option Token) (p : Piece) :
      Code.absorbsBelow buf (separator last p) = false := by
    unfold separator
    split <;> rfl
  induction h generalizing last with
  | nil => rfl
  | text t pos _ ih =>
    rw [joinFrom_cons, absorbsBelow_append, absorbsBelow_append, hseparator, ih]
    rfl
  | code hp _ ih =>
    rw [joinFrom_cons, absorbsBelow_append, absorbsBelow_append, hseparator, ih, hp.apart]
    rfl

/-- What pieces do is not changed by joining their calls, but for semicolons. -/
theorem Do.join {ps : List Piece} {es : List Event} (h : Do buf ps es) :
    absorbs buf (join ps) = false ∧ Alike (events buf (Code.join ps)) es := by
  refine ⟨?_, h.alike⟩
  rw [absorbs, Bool.or_eq_false_iff]
  exact ⟨h.absorbsFrom none, h.absorbsBelow none⟩

theorem withText_withText (a b : Text) (es : List Event) :
    withText a (withText b es) = withText (a ++ b) es := by
  cases a with
  | nil => rfl
  | cons x a =>
    cases b with
    | nil => simp [withText]
    | cons y b => simp [withText, writeBefore_writeBefore]

theorem Do.flush {ps : List Piece} {es : List Event} (h : Do buf ps es) (t : Text)
    (pos : Option Position) : Do buf (flush buf t pos ++ ps) (withText t es) := by
  cases t with
  | nil => exact h
  | cons b t => exact .text (b :: t) pos h

theorem Do.static {ps : List Piece} {es : List Event} (h : Do buf ps es) {t : Text} (ht : t ≠ [])
    (pos : Option Position) : Do buf (writeText buf t pos :: ps) (withText t es) := by
  rw [withText, if_neg (by simpa using ht)]
  exact .text t pos h

/-- A piece at the end. -/
theorem Do.append {ps : List Piece} {es fs : List Event} {p : Piece} (h : Do buf ps es)
    (hp : p.Copies buf fs) : Do buf (ps ++ [p]) (es ++ fs) := by
  have hend : Do buf [p] fs := by simpa using Do.code hp .nil
  have hfs (a : Text) (gs : List Event) : fs ≠ .write a :: gs := by
    rintro rfl
    obtain ⟨t, ts, ht⟩ := List.exists_cons_of_ne_nil hp.nonempty
    have hhead := hp.does.head
    rw [ht] at hhead
    cases t <;> simp [Event.ofToken, Event.joined, Event.withoutSemicolons] at hhead
  induction h with
  | nil => exact hend
  | @text ps es t pos _ ih =>
    have hcut : writeBefore t es ++ fs = writeBefore t (es ++ fs) := by
      cases es with
      | nil =>
        cases fs with
        | nil => rfl
        | cons f fs =>
          cases f with
          | write a => exact absurd rfl (hfs a fs)
          | token | group => rfl
      | cons e es => cases e <;> rfl
    rw [hcut]
    exact .text t pos ih
  | code hq _ ih =>
    rw [List.append_assoc]
    exact .code hq ih

/-! ## The code of nodes -/

theorem joined_group (f : Frame) (ts : List Token) :
    (Event.ofToken buf (.group f ts)).joined = .group f (events buf ts) := rfl

theorem copies_token {t : Token} {e : Event} (hw : Inert buf [t]) (ha : absorbsInside buf t = false)
    (he : (Event.ofToken buf t).joined.withoutSemicolons = e.withoutSemicolons) :
    Piece.Copies buf ⟨[t], false⟩ [e] := by
  refine ⟨hw, by simp, by simp [absorbsBelow, ha], ?_⟩
  exact Alike.cons_iff.mpr ⟨e, [], rfl, he, rfl⟩

/-- Of the receiver of a call only the name matters. -/
theorem written?_ident {r r' : Ident} (h : r.name = r'.name) (ts : List Token) :
    written? buf (.ident r :: ts) = written? buf (.ident r' :: ts) := by
  have hsome {r r' : Ident} (h : r.name = r'.name) {x : Text}
      (hx : written? buf (.ident r :: ts) = some x) : written? buf (.ident r' :: ts) = some x := by
    obtain ⟨_, rest, hts, s, d, m, f, l, e, rfl, hs, hd, hm, hf, hl, he, hu⟩ := exists_of_written? hx
    cases hts
    exact written?_append ⟨r', d, m, f, l, e, rfl, h ▸ hs, hd, hm, hf, hl, he, hu⟩ rest
  exact Option.ext fun x => ⟨hsome h, hsome h.symm⟩

theorem written?_unspaced (ts : List Token) : written? buf (unspaced ts) = written? buf ts := by
  cases ts with
  | nil => rfl
  | cons t ts =>
    cases t with
    | ident r => exact @written?_ident buf { r with space := [] } r rfl ts
    | literal | punct | group => rfl

theorem absorbs_unspaced (ts : List Token) : absorbs buf (unspaced ts) = absorbs buf ts := by
  cases ts with
  | nil => rfl
  | cons t ts =>
    have hw : written? buf (t.withSpace [] :: ts) = written? buf (t :: ts) := written?_unspaced (t :: ts)
    have hinside : absorbsInside buf (t.withSpace []) = absorbsInside buf t := by cases t <;> rfl
    simp only [absorbs, unspaced, absorbsFrom, absorbsBelow, hw, hinside, Token.isPunct_withSpace]

theorem unspacedEvents_writeBefore (a : Text) (es : List Event) :
    unspacedEvents (writeBefore a es) = writeBefore a es := by
  cases es with
  | nil => rfl
  | cons e es => cases e <;> rfl

theorem events_unspaced (ts : List Token) :
    events buf (unspaced ts) = unspacedEvents (events buf ts) := by
  cases ts with
  | nil => rfl
  | cons t ts =>
    have hw : written? buf (t.withSpace [] :: ts) = written? buf (t :: ts) := written?_unspaced (t :: ts)
    cases hcall : written? buf (t :: ts) with
    | none =>
      rw [hcall] at hw
      rw [events, events, reading, reading, unspaced, readFrom_token false (.inr hw),
        readFrom_token false (.inr hcall), Token.isPunct_withSpace]
      cases t <;> rfl
    | some x =>
      have hread (u : Token) (hu : written? buf (u :: ts) = some x) :
          events buf (u :: ts) = writeBefore x (joinWrites (joinedEach (readFrom buf false 4 ts))) := by
        rw [events, reading, readFrom]
        simp only [Bool.false_eq_true, if_false, hu]
        rfl
      rw [unspaced, hread _ (hw.trans hcall), hread t hcall, unspacedEvents_writeBefore]

theorem copies_writeValue {ts : List Token} {es : List Event} (ha : absorbs buf ts = false)
    (h : Alike (events buf ts) es) (pos : Option Position) :
    (writeValue buf ts pos).Copies buf (valueEvents buf es pos) := by
  have hmethod : utf8 "WriteValue" ≠ utf8 "WriteLiteral" := by decide
  have hdoes : (writeValue buf ts pos).tokens.map (fun t => (Event.ofToken buf t).joined) =
      valueEvents buf (events buf ts) pos := by
    rw [valueEvents, ← events_unspaced]
    rfl
  rw [← absorbs_unspaced, absorbs, Bool.or_eq_false_iff] at ha
  refine ⟨inert_call hmethod _ _ _, by simp [writeValue, call], ?_, ?_⟩
  · simpa [writeValue, call, absorbsBelow, absorbsInside, Token.word, Token.mark, Token.enclose]
      using ha
  · rw [hdoes]
    exact ⟨rfl, withoutSemicolons_group [_, _, _] [_] _ h.unspacedEvents.all⟩

theorem copies_defineCall {ts : List Token} {es : List Event} (ha : absorbs buf ts = false)
    (h : Alike (events buf ts) es) (pos : Option Position) (name : Text) :
    (defineCall buf pos name ts).Copies buf (defineEvents buf pos name es) := by
  have hmethod : utf8 "DefineSection" ≠ utf8 "WriteLiteral" := by decide
  have hdoes : (defineCall buf pos name ts).tokens.map (fun t => (Event.ofToken buf t).joined) =
      defineEvents buf pos name (events buf ts) := rfl
  rw [absorbs, Bool.or_eq_false_iff] at ha
  refine ⟨inert_call hmethod _ _ _, by simp [defineCall], ?_, ?_⟩
  · simp [defineCall, absorbsBelow, absorbsInside, absorbsFrom, written?, Token.word, Token.mark,
      Token.enclose, Token.isPunct, ha]
  · rw [hdoes]
    refine ⟨rfl, withoutSemicolons_group [_, _, _] [_] _ ?_⟩
    exact withoutSemicolons_group [_, _, _, _] [] _ h.all

/-- Pieces after a semicolon need no other one. -/
theorem joinFrom_semicolon {ps : List Piece} (hps : ∀ p ∈ ps, p.tokens ≠ []) {t : Token}
    (ht : t.isPunct ';' = true) : joinFrom (some t) ps = joinFrom none ps := by
  cases ps with
  | nil => rfl
  | cons p ps =>
    obtain ⟨u, hu⟩ := Option.isSome_iff_exists.mp (List.getLast?_isSome.mpr (hps p (by simp)))
    simp [joinFrom, ht, hu]

/-- The code that makes a new buffer. -/
def startPiece (buf : Text) (pos : Option Position) : Piece :=
  ⟨[.word pos buf, .punct ⟨pos, utf8 " ", ':'⟩, .mark pos '=', .ident ⟨pos, utf8 " ", runtimeName⟩,
    .mark pos '.', .word pos (utf8 "NewBuffer"), .enclose pos .parenthesis [], .mark pos ';'], false⟩

/-- The code that returns what was written to the buffer. -/
def stopPiece (buf : Text) (type : Ident) : Piece :=
  let pos := type.pos
  ⟨[.word pos (utf8 "return"), .word pos type.name, .enclose pos .parenthesis
    [.word pos buf, .mark pos '.', .word pos (utf8 "String"), .enclose pos .parenthesis []]], true⟩

theorem copies_startPiece (pos : Option Position) :
    (startPiece buf pos).Copies buf (startEvents buf pos) :=
  ⟨⟨fun _ => rfl, fun _ => rfl, fun _ => rfl, fun _ => rfl, fun _ => rfl, fun _ => rfl, fun _ => rfl,
    fun _ => rfl, trivial⟩, by simp [startPiece], rfl, .refl _⟩

theorem copies_stopPiece (type : Ident) : (stopPiece buf type).Copies buf (stopEvents buf type) :=
  ⟨⟨fun _ => rfl, fun _ => rfl, fun _ => rfl, trivial⟩, by simp [stopPiece], rfl, .refl _⟩

/-- The body of a closure is made of pieces: those of its nodes stand between one that makes a buffer and
one that returns what was written to it. -/
theorem closureCode_tokens (buf : Text) (type : Ident) (f : Frame) {ps : List Piece}
    (hps : ∀ p ∈ ps, p.tokens ≠ []) :
    (closureCode buf type f (join ps)).tokens = [.ident ⟨type.pos, utf8 " ", type.name⟩,
      .group ⟨f.pos, utf8 " ", .brace, []⟩
        (join (startPiece buf type.pos :: (ps ++ [stopPiece buf type])))] := by
  have hlast := getLast?_joinFrom hps (some (.mark type.pos ';'))
  have hjoin : joinFrom (some (.mark type.pos ';')) ps = join ps := joinFrom_semicolon hps rfl
  have hseparator : separator (lastToken (some (.mark type.pos ';')) ps) (stopPiece buf type) =
      if (join ps).getLast?.any (!·.isPunct ';') then [.mark type.pos ';'] else [] := by
    rw [← hlast, hjoin]
    cases (join ps).getLast? <;> rfl
  have hstart (qs : List Piece) : join (startPiece buf type.pos :: qs) =
      (startPiece buf type.pos).tokens ++ joinFrom (some (.mark type.pos ';')) qs := rfl
  rw [hstart, joinFrom_append, joinFrom_cons, hseparator, hjoin]
  simp [closureCode, startPiece, stopPiece, joinFrom]

theorem copies_closureCode {ps : List Piece} {es : List Event} (hps : ∀ p ∈ ps, p.tokens ≠ [])
    (h : Do buf ps es) (type : Ident) (f : Frame) :
    (closureCode buf type f (join ps)).Copies buf (closureEvents buf type f es) := by
  have hbody := (Do.code (copies_startPiece type.pos) (h.append (copies_stopPiece type))).join
  have hdoes : (closureCode buf type f (Code.join ps)).tokens.map
      (fun t => (Event.ofToken buf t).joined) = [.token (.ident ⟨type.pos, utf8 " ", type.name⟩),
        .group ⟨f.pos, utf8 " ", .brace, []⟩
          (events buf (Code.join (startPiece buf type.pos :: (ps ++ [stopPiece buf type]))))] := by
    rw [closureCode_tokens buf type f hps]
    rfl
  refine ⟨⟨fun _ => rfl, fun _ => rfl, trivial⟩, by simp [closureCode], ?_, ?_⟩
  · have habsorbs := hbody.1
    rw [absorbs] at habsorbs
    rw [closureCode_tokens buf type f hps]
    simp [absorbsBelow, absorbsInside, habsorbs]
  · rw [hdoes]
    exact ⟨rfl, withoutSemicolons_group [_] [] _ hbody.2.all⟩

/-- The nodes hold no identifier with the name of the buffer and no content that is left for later. -/
def Settled (settings : Settings) (ns : List Node) : Prop :=
  AllWithin (fun n => n.avoids settings.buffer ∧ n.isRead) ns

/-- The nodes hold no identifier with the name of the buffer, and what is left for later can be read. -/
def Readable (settings : Settings) (ns : List Node) : Prop :=
  AllWithin (fun n => n.avoids settings.buffer ∧ CanBeRead settings n) ns

/-- The code of a node without lists that is markup is one call. -/
theorem Do.markup {settings : Settings} {n : Node} (hm : n.isMarkup = true) (ht : n.isText = false)
    {ps : List Piece} {es : List Event} (h : Do settings.buffer ps es) :
    Do settings.buffer (nodePieces settings.buffer n ++ ps) (outlineNode settings n es) := by
  have houtline : outlineNode settings n es = withText n.markup es := by
    cases n with
    | tagStart | tagVoid | tagEnd | closeStart | closeSelf | closeVoid | attrName | attrEquals => rfl
    | text => cases ht
    | _ => cases hm
  rw [nodePieces_markup _ hm ht, houtline]
  exact h.static (markup_ne_nil hm ht) n.pos

mutual

/-- The code of a node does what its outline says. -/
theorem do_nodePieces (settings : Settings) : (n : Node) → n.avoids settings.buffer → n.isRead →
    (∀ l ∈ n.lists, Settled settings l) → n.isText = false → ∀ {ps : List Piece} {es : List Event},
    Do settings.buffer ps es →
    Do settings.buffer (nodePieces settings.buffer n ++ ps) (outlineNode settings n es)
  | .ident t, ha, _, _, _, _, _, h => .code (copies_token (inert_ident ha) rfl rfl) h
  | .literal t, _, _, _, _, _, _, h => .code (copies_token ⟨fun _ => rfl, trivial⟩ rfl rfl) h
  | .punct t, _, _, _, _, _, _, h => .code (copies_token ⟨fun _ => rfl, trivial⟩ rfl rfl) h
  | .group f ns, _, _, hl, _, _, _, h => by
    have hns := (do_piecesFrom settings ns (hl ns (by simp [lists])) [] none).join
    have hcopies : Piece.Copies settings.buffer
        ⟨[.group f (join (piecesFrom settings.buffer [] none ns))], false⟩
        [.group f (outline settings ns)] := by
      refine copies_token ⟨fun _ => rfl, trivial⟩ (by rw [absorbsInside]; exact hns.1) ?_
      rw [joined_group, Event.withoutSemicolons, Event.withoutSemicolons, hns.2.all]
      rfl
    exact .code hcopies h
  | .tagStart .., _, _, _, _, _, _, h => h.markup rfl rfl
  | .tagVoid .., _, _, _, _, _, _, h => h.markup rfl rfl
  | .tagEnd .., _, _, _, _, _, _, h => h.markup rfl rfl
  | .closeStart .., _, _, _, _, _, _, h => h.markup rfl rfl
  | .closeSelf .., _, _, _, _, _, _, h => h.markup rfl rfl
  | .closeVoid .., _, _, _, _, _, _, h => h.markup rfl rfl
  | .attrName .., _, _, _, _, _, _, h => h.markup rfl rfl
  | .attrEquals .., _, _, _, _, _, _, h => h.markup rfl rfl
  | .attrValue pos v e, _, _, hl, _, _, _, h => by
    rw [nodePieces, outlineNode]
    split
    · have he := (do_piecesFrom settings e (hl e (by simp [lists])) [] none).join
      have hquote : ([0x22] : Text) ≠ [] := by simp
      exact (Do.code (copies_writeValue he.1 he.2 pos) (h.static hquote pos)).static hquote pos
    · exact h.static (staticText_ne_nil v) pos
  | .text .., _, _, _, ht, _, _, _ => by cases ht
  | .write pos e, _, _, hl, _, _, _, h => by
    have he := (do_piecesFrom settings e (hl e (by simp [lists])) [] none).join
    exact .code (copies_writeValue he.1 he.2 pos) h
  | .external .., _, hr, _, _, _, _, _ => hr.elim
  | .closure type f ns, _, _, hl, _, _, _, h => by
    have hns := do_piecesFrom settings ns (hl ns (by simp [lists])) [] none
    exact .code (copies_closureCode (fun p hp => piecesFrom_tokens_ne_nil hp) hns type f) h
  | .define pos name ns, _, _, hl, _, _, _, h => by
    have hns := (do_piecesFrom settings ns (hl ns (by simp [lists])) [] none).join
    exact .code (copies_defineCall hns.1 hns.2 pos name) h

/-- The code of nodes does what their outline says, after a pending text. -/
theorem do_piecesFrom (settings : Settings) : (ns : List Node) → Settled settings ns →
    ∀ (pending : Text) (pos : Option Position),
    Do settings.buffer (piecesFrom settings.buffer pending pos ns)
      (withText pending (outline settings ns))
  | [], _, pending, pos => by simpa [piecesFrom, outline] using Do.nil.flush pending pos
  | n :: ns, h, pending, pos => by
    obtain ⟨⟨ha, hr⟩, hl, hns⟩ := allWithin_cons.mp h
    cases ht : n.isText with
    | true =>
      cases n with
      | text p t =>
        rw [piecesFrom_text, outline, outlineNode, Node.markup, withText_withText]
        · exact do_piecesFrom settings ns hns (pending ++ t) _
        all_goals simp
      | _ => cases ht
    | false =>
      rw [piecesFrom_cons _ _ _ _ ht, List.append_assoc, outline]
      exact (do_nodePieces settings n ha hr hl ht (do_piecesFrom settings ns hns [] none)).flush pending pos

end

/-! ## Contents that are left for later -/

/-- A content that can be read is read. -/
theorem externalText_eq_ok {settings : Settings} {pos : Option Position} {path includer : Text}
    {markdown : Bool} {t : Text} (h : externalText? settings pos path includer markdown = some t)
    (w : World) : ∃ w', externalText settings pos path includer markdown w = .ok t w' := by
  unfold externalText? at h
  unfold externalText
  rcases hread : Content.read settings.files includer path pos with ⟨result, tried⟩
  rw [hread] at h
  cases result with
  | error e => cases h
  | ok found =>
    obtain ⟨data, file⟩ := found
    cases markdown with
    | false =>
      cases h
      cases tried <;> exact ⟨_, rfl⟩
    | true =>
      cases hrender : Content.renderMarkdown settings data pos with
      | error e => simp [hrender, Except.toOption] at h
      | ok html =>
        simp only [hrender, Except.toOption, if_true, Option.some.injEq] at h
        subst h
        cases tried <;> simp only [hrender] <;> exact ⟨_, rfl⟩

/-- The contents in the node can be read, which gives a node with the same outline. -/
def KeepsOutline (settings : Settings) (n : Node) (w : World) : Prop :=
  ∃ n' w', resolveNode settings n w = .ok n' w' ∧ n'.avoids settings.buffer ∧ n'.isRead ∧
    (∀ l ∈ n'.lists, Settled settings l) ∧ ∀ es, outlineNode settings n' es = outlineNode settings n es

theorem keepsOutline_leaf {settings : Settings} {n : Node} (ha : n.avoids settings.buffer)
    (hr : n.isRead) (hl : n.lists = []) (w : World) : KeepsOutline settings n w := by
  refine ⟨n, w, ?_, ha, hr, by simp [hl], fun _ => rfl⟩
  cases n with
  | external => exact hr.elim
  | group | write | closure | define | attrValue => cases hl
  | _ => rfl

/-- A node that holds a list is read by reading the list. -/
theorem resolveNode_inner {settings : Settings} {mk : List Node → Node} {ns ns' : List Node}
    {w w' : World} (hmk : resolveNode settings (mk ns) = do return mk (← resolve settings ns))
    (h : resolve settings ns w = .ok ns' w') : resolveNode settings (mk ns) w = .ok (mk ns') w' := by
  rw [hmk]
  simp only [bind, EStateM.bind, h]
  rfl

mutual

/-- Reading the contents in a node keeps its outline. -/
theorem keepsOutline (settings : Settings) : (n : Node) → n.avoids settings.buffer →
    CanBeRead settings n → (∀ l ∈ n.lists, Readable settings l) → (w : World) →
    KeepsOutline settings n w
  | .external pos path includer markdown, _, hr, _, w => by
    obtain ⟨t, ht⟩ := Option.isSome_iff_exists.mp hr
    obtain ⟨w', hw⟩ := externalText_eq_ok ht w
    refine ⟨.text pos t, w', ?_, trivial, trivial, by simp [lists], fun es => ?_⟩
    · simp only [resolveNode, bind, EStateM.bind, hw]
      rfl
    · simp [outlineNode, Node.markup, ht]
  | .group f ns, _, _, hl, w => by
    obtain ⟨ns', w', hns, hset, ho, -⟩ := resolve_outline settings ns (hl ns (by simp [lists])) w
    refine ⟨.group f ns', w', resolveNode_inner (by rw [resolveNode]) hns, trivial, trivial,
      by simpa [lists] using hset, fun es => ?_⟩
    rw [outlineNode, outlineNode, ho]
  | .attrValue pos v e, _, _, hl, w => by
    obtain ⟨e', w', he, hset, ho, hempty⟩ := resolve_outline settings e (hl e (by simp [lists])) w
    refine ⟨.attrValue pos v e', w', resolveNode_inner (by rw [resolveNode]) he, trivial, trivial,
      by simpa [lists] using hset, fun es => ?_⟩
    rw [outlineNode, outlineNode, ho, hempty]
  | .write pos e, _, _, hl, w => by
    obtain ⟨e', w', he, hset, ho, -⟩ := resolve_outline settings e (hl e (by simp [lists])) w
    refine ⟨.write pos e', w', resolveNode_inner (by rw [resolveNode]) he, trivial, trivial,
      by simpa [lists] using hset, fun es => ?_⟩
    rw [outlineNode, outlineNode, ho]
  | .closure type f ns, _, _, hl, w => by
    obtain ⟨ns', w', hns, hset, ho, -⟩ := resolve_outline settings ns (hl ns (by simp [lists])) w
    refine ⟨.closure type f ns', w', resolveNode_inner (by rw [resolveNode]) hns, trivial, trivial,
      by simpa [lists] using hset, fun es => ?_⟩
    rw [outlineNode, outlineNode, ho]
  | .define pos name ns, _, _, hl, w => by
    obtain ⟨ns', w', hns, hset, ho, -⟩ := resolve_outline settings ns (hl ns (by simp [lists])) w
    refine ⟨.define pos name ns', w', resolveNode_inner (by rw [resolveNode]) hns, trivial, trivial,
      by simpa [lists] using hset, fun es => ?_⟩
    rw [outlineNode, outlineNode, ho]
  | .ident _, ha, _, _, w => keepsOutline_leaf ha trivial rfl w
  | .literal _, ha, _, _, w => keepsOutline_leaf ha trivial rfl w
  | .punct _, ha, _, _, w => keepsOutline_leaf ha trivial rfl w
  | .tagStart .., ha, _, _, w => keepsOutline_leaf ha trivial rfl w
  | .tagVoid .., ha, _, _, w => keepsOutline_leaf ha trivial rfl w
  | .tagEnd .., ha, _, _, w => keepsOutline_leaf ha trivial rfl w
  | .closeStart .., ha, _, _, w => keepsOutline_leaf ha trivial rfl w
  | .closeSelf .., ha, _, _, w => keepsOutline_leaf ha trivial rfl w
  | .closeVoid .., ha, _, _, w => keepsOutline_leaf ha trivial rfl w
  | .attrName .., ha, _, _, w => keepsOutline_leaf ha trivial rfl w
  | .attrEquals _, ha, _, _, w => keepsOutline_leaf ha trivial rfl w
  | .text .., ha, _, _, w => keepsOutline_leaf ha trivial rfl w

/-- Reading the contents in nodes keeps their outline. -/
theorem resolve_outline (settings : Settings) : (ns : List Node) → Readable settings ns →
    (w : World) → ∃ ns' w', resolve settings ns w = .ok ns' w' ∧ Settled settings ns' ∧
      outline settings ns' = outline settings ns ∧ ns'.isEmpty = ns.isEmpty
  | [], _, w => ⟨[], w, rfl, .nil, rfl, rfl⟩
  | n :: ns, h, w => by
    obtain ⟨⟨ha, hr⟩, hl, hns⟩ := allWithin_cons.mp h
    obtain ⟨n', w₁, hn', ha', hr', hl', ho⟩ := keepsOutline settings n ha hr hl w
    obtain ⟨ns', w₂, hns', hset, hos, -⟩ := resolve_outline settings ns hns w₁
    refine ⟨n' :: ns', w₂, ?_, allWithin_cons.mpr ⟨⟨ha', hr'⟩, hl', hset⟩, ?_, rfl⟩
    · rw [resolve]
      simp only [bind, EStateM.bind, hn', hns']
      rfl
    · rw [outline, outline, hos, ho]

end

/-- The code of nodes whose contents can be read, in which no identifier has the name of the buffer, does
what the outline of the nodes says once neighbouring calls are joined, semicolons apart: each run of static
text is one call. -/
theorem reading_coalesce_ofNodes (settings : Settings) {ns : List Node} (h : Readable settings ns)
    (w : World) : ∃ ts w', ofNodes settings ns w = .ok ts w' ∧
      withoutSemicolons (reading settings.buffer (coalesce settings.buffer ts)) =
        withoutSemicolons (outline settings ns) := by
  obtain ⟨ns', w', hread, hset, houtline, -⟩ := resolve_outline settings ns h w
  obtain ⟨habsorbs, hevents⟩ := (do_piecesFrom settings ns' hset [] none).join
  refine ⟨lower settings.buffer ns', w', ?_, ?_⟩
  · simp only [ofNodes, bind, EStateM.bind, hread]
    rfl
  · rw [lower, reading_coalesce habsorbs, ← houtline]
    exact hevents.all

/-- Content of another file joins the text before it, and a group the calls in it. -/
theorem reading_coalesce_ofNodes_page :
    let settings : Settings :=
      { files := some ⟨[(utf8 "c.html", utf8 "C")], false⟩, markdown := .ok }
    let x : Token := .word none (utf8 "x")
    let body : Frame := ⟨none, [], .brace, []⟩
    let ns : List Node :=
      [.text none (utf8 "a"), .external none (utf8 "/c.html") (utf8 "p.html") false,
        .ident ⟨none, [], utf8 "x"⟩,
        .group body [.attrEquals none, .text none (utf8 "b"), .punct ⟨none, [], ';'⟩,
          .tagEnd none (utf8 "p") []],
        .write none [.ident ⟨none, utf8 " ", utf8 "x"⟩]]
    Readable settings ns ∧ ∃ ts w', ofNodes settings ns {} = .ok ts w' ∧
      withoutSemicolons (reading settings.buffer (coalesce settings.buffer ts)) =
        .write (utf8 "aC") :: .token x ::
          .group body [.write (utf8 "=b"), .write (utf8 "</p>")] ::
          withoutSemicolons (valueEvents (utf8 "html") [.token x] none) := by
  intro settings x body ns
  have hfile : (externalText? settings none (utf8 "/c.html") (utf8 "p.html") false).isSome = true := rfl
  have hname : utf8 "x" ≠ settings.buffer := by decide
  have hns : Readable settings ns := by
    simp [Readable, ns, allWithin_cons, AllWithin.nil, lists, avoids, CanBeRead, hfile, hname]
  exact ⟨hns, reading_coalesce_ofNodes settings hns {}⟩

end Code
end Atmark
