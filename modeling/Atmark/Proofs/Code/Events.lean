import Atmark.Proofs.Code.Markup

/-! What a list of tokens does to a buffer, and what joining its calls changes. A list is read as events:
a call that writes a text to the buffer is one event, every other token is itself (`reading`); neighbouring
writes count as one (`events`). Joining keeps the events, except where a call on a selector that ends with
the name of the buffer is directly followed by a call on the buffer: there the first takes over the text of
the second (`events_coalesce_iff`). -/
namespace Atmark.Code

/-- What a token, or a call that writes a text, does. -/
inductive Event where
  /-- A text is written to the buffer. -/
  | write (text : Text)
  /-- A token that is no group. -/
  | token (t : Token)
  | group (frame : Frame) (body : List Event)

/-- The text that the call at the head of the tokens writes to `buf`. -/
def written? (buf : Text) : List Token → Option Text
  | .ident r :: .punct d :: .ident m :: .group f [.literal l] :: .punct s :: _ =>
    if r.name = buf ∧ d.char = '.' ∧ m.name = utf8 "WriteLiteral" ∧ f.delim = .parenthesis ∧
        l.isString = true ∧ s.char = ';' then Text.unquote? l.raw
    else none
  | _ => none

mutual

/-- What a token does on its own. -/
def Event.ofToken (buf : Text) : Token → Event
  | .group f ts => .group f (readFrom buf false 0 ts)
  | t => .token t

/-- What tokens do, after tokens that belong to a call already read. A call is one on the buffer unless
its receiver is selected from something else, by a dot right before it. -/
def readFrom (buf : Text) (selected : Bool) : Nat → List Token → List Event
  | _, [] => []
  | n + 1, _ :: ts => readFrom buf false n ts
  | 0, t :: ts =>
    match if selected then none else written? buf (t :: ts) with
    | some text => .write text :: readFrom buf false 4 ts
    | none => Event.ofToken buf t :: readFrom buf (t.isPunct '.') 0 ts

end

/-- What tokens do, each call on its own. -/
def reading (buf : Text) (ts : List Token) : List Event := readFrom buf false 0 ts

/-- A text written before events; one that they begin with continues it. -/
def writeBefore (a : Text) : List Event → List Event
  | .write b :: es => .write (a ++ b) :: es
  | es => .write a :: es

/-- Neighbouring writes as one. -/
def joinWrites : List Event → List Event
  | [] => []
  | .write a :: es => writeBefore a (joinWrites es)
  | e :: es => e :: joinWrites es

mutual

/-- An event with the neighbouring writes in it as one. -/
def Event.joined : Event → Event
  | .group f es => .group f (joinWrites (joinedEach es))
  | e => e

/-- Each event with the neighbouring writes in it as one. -/
def joinedEach : List Event → List Event
  | [] => []
  | e :: es => e.joined :: joinedEach es

end

/-- What tokens do, with neighbouring writes as one at every depth. -/
def events (buf : Text) (ts : List Token) : List Event := joinWrites (joinedEach (reading buf ts))

/-! ## Where a write goes to another buffer -/

/-- Directly in the list, a call on a selector that ends with `buf` is followed by a call on `buf`. -/
def absorbsFrom (buf : Text) (selected : Bool) : List Token → Bool
  | [] => false
  | t :: ts =>
    (selected && (written? buf (t :: ts)).isSome && (written? buf (ts.drop 4)).isSome) ||
      absorbsFrom buf (t.isPunct '.') ts

mutual

/-- So it is inside the token. -/
def absorbsInside (buf : Text) : Token → Bool
  | .group _ ts => absorbsFrom buf false ts || absorbsBelow buf ts
  | _ => false

/-- So it is inside one of the tokens. -/
def absorbsBelow (buf : Text) : List Token → Bool
  | [] => false
  | t :: ts => absorbsInside buf t || absorbsBelow buf ts

end

/-- At some depth, a call on a selector that ends with `buf` is followed by a call on `buf`. -/
def absorbs (buf : Text) (ts : List Token) : Bool := absorbsFrom buf false ts || absorbsBelow buf ts

/-! ## Tokens as calls and others -/

variable {buf : Text}

/-- A call is read at the head of a list only if it stands there. -/
theorem textCall?_eq_some {ts : List Token} {c : TextCall} (h : textCall? buf ts = some c) :
    c.Writes buf ∧ c.isJoined = false ∧ ∃ rest, ts = c.tokens ++ rest := by
  unfold textCall? at h
  split at h
  · split at h
    · rename_i hc
      obtain ⟨text, hu, rfl⟩ := Option.map_eq_some_iff.mp h
      simp only [Bool.and_eq_true, decide_eq_true_eq] at hc
      obtain ⟨⟨⟨⟨⟨hr, hd⟩, hm⟩, hf⟩, hl⟩, hs⟩ := hc
      exact ⟨⟨hr, hd, hm, hf, hl, hs, fun _ => hu⟩, rfl, _, rfl⟩
    · cases h
  · cases h

/-- A list of tokens is made of calls and of tokens that start none. -/
theorem callInduction (buf : Text) {motive : List Token → Prop} (nil : motive [])
    (call : ∀ (c : TextCall) ts, c.Writes buf → c.isJoined = false → motive ts → motive (c.tokens ++ ts))
    (token : ∀ t ts, textCall? buf (t :: ts) = none → motive ts → motive (t :: ts)) (ts : List Token) :
    motive ts := by
  induction h : ts.length using Nat.strong_induction_on generalizing ts with
  | _ n ih =>
    cases ts with
    | nil => exact nil
    | cons t ts =>
      cases hc : textCall? buf (t :: ts) with
      | none => exact token t ts hc (ih ts.length (by simp [← h]) ts rfl)
      | some c =>
        obtain ⟨hw, hj, rest, hr⟩ := textCall?_eq_some hc
        rw [hr] at h ⊢
        refine call c rest hw hj (ih rest.length ?_ rest rfl)
        simp only [TextCall.tokens, List.length_append, List.length_cons] at h
        omega

theorem textCall?_tokens {c : TextCall} (hc : c.Writes buf) (hj : c.isJoined = false)
    (ts : List Token) : textCall? buf (c.tokens ++ ts) = some c := by
  obtain ⟨hr, hd, hm, hf, hl, hs, hu⟩ := hc
  obtain ⟨r, d, m, f, l, s, text, joined⟩ := c
  subst hj
  simp_all [TextCall.tokens, textCall?]

theorem items_call {c : TextCall} (hc : c.Writes buf) (hj : c.isJoined = false) (ts : List Token) :
    items buf (c.tokens ++ ts) = .call c :: items buf ts := by
  have h := textCall?_tokens hc hj ts
  simp only [TextCall.tokens, List.cons_append, List.nil_append, items, itemsFrom] at h ⊢
  rw [h]

theorem items_token {t : Token} {ts : List Token} (h : textCall? buf (t :: ts) = none) :
    items buf (t :: ts) = .token t :: items buf ts := by
  simp only [items, itemsFrom, h]

/-! ## Reading calls -/

theorem written?_append {c : List Token} {x : Text} (hc : IsTextCall buf x c) (ts : List Token) :
    written? buf (c ++ ts) = some x := by
  obtain ⟨r, d, m, f, l, s, rfl, hr, hd, hm, hf, hl, hs, hu⟩ := hc
  simp [written?, hr, hd, hm, hf, hl, hs, hu]

theorem exists_of_written? {ts : List Token} {x : Text} (h : written? buf ts = some x) :
    ∃ c rest, ts = c ++ rest ∧ IsTextCall buf x c := by
  unfold written? at h
  split at h
  · split at h
    · rename_i hc
      obtain ⟨hr, hd, hm, hf, hl, hs⟩ := hc
      exact ⟨_, _, rfl, _, _, _, _, _, _, rfl, hr, hd, hm, hf, hl, hs, h⟩
    · cases h
  · cases h

theorem written?_tokens {c : TextCall} (hc : c.Writes buf) (ts : List Token) :
    written? buf (c.tokens ++ ts) = some c.text :=
  written?_append hc.isTextCall ts

/-- Reading finds the calls that joining finds. -/
theorem written?_eq_none {ts : List Token} (h : textCall? buf ts = none) : written? buf ts = none := by
  cases hw : written? buf ts with
  | none => rfl
  | some x =>
    obtain ⟨_, rest, rfl, r, d, m, f, l, s, rfl, hr, hd, hm, hf, hl, hs, hu⟩ := exists_of_written? hw
    simp [textCall?, hr, hd, hm, hf, hl, hs, hu] at h

theorem readFrom_token (selected : Bool) {t : Token} {ts : List Token}
    (h : selected = true ∨ written? buf (t :: ts) = none) :
    readFrom buf selected 0 (t :: ts) =
      Event.ofToken buf t :: readFrom buf (t.isPunct '.') 0 ts := by
  rw [readFrom]
  have hnone : (if selected then none else written? buf (t :: ts)) = none := by
    rcases h with rfl | h
    · rfl
    · rw [h]
      exact ite_self none
  rw [hnone]

/-- A call on the buffer is one event. -/
theorem readFrom_call {c : TextCall} (hc : c.Writes buf) (ts : List Token) :
    readFrom buf false 0 (c.tokens ++ ts) = .write c.text :: readFrom buf false 0 ts := by
  have h := written?_tokens hc ts
  simp only [TextCall.tokens, List.cons_append, List.nil_append, readFrom] at h ⊢
  simp only [h, Bool.false_eq_true, if_false]

/-- A call on something that the buffer is selected from is as many events as tokens. -/
theorem readFrom_selected {c : TextCall} (hc : c.Writes buf) (ts : List Token) :
    readFrom buf true 0 (c.tokens ++ ts) =
      c.tokens.map (Event.ofToken buf) ++ readFrom buf false 0 ts := by
  obtain ⟨r, d, m, f, l, s, hts, hr, hd, hm, hf, hl, hs, hu⟩ := hc.isTextCall
  have hmethod : written? buf (.ident m :: .group f [.literal l] :: .punct s :: ts) = none := rfl
  have hsign (p : Punct) (us : List Token) : written? buf (.punct p :: us) = none := rfl
  have hgroup (us : List Token) : written? buf (.group f [.literal l] :: us) = none := rfl
  simp only [hts, List.cons_append, List.nil_append, List.map_cons, List.map_nil]
  rw [readFrom_token true (.inl rfl), readFrom_token _ (.inr (hsign _ _)),
    readFrom_token _ (.inr hmethod), readFrom_token _ (.inr (hgroup _)),
    readFrom_token _ (.inr (hsign _ _))]
  simp [Token.isPunct, hs]

/-! ## Joining the calls of one block -/

theorem joinBlock_token {t : Token} {ts : List Token} (h : textCall? buf (t :: ts) = none) :
    joinBlock buf (t :: ts) = t :: joinBlock buf ts := by
  simp [joinBlock, items_token h, joinCalls, Item.tokens]

theorem joinCalls_writes (ts : List Token) {c : TextCall} (h : .call c ∈ joinCalls (items buf ts)) :
    c.Writes buf := by
  induction ts using callInduction buf generalizing c with
  | nil => cases h
  | token t ts ht ih =>
    rw [items_token ht, joinCalls] at h
    rcases List.mem_cons.mp h with h | h
    · cases h
    · exact ih h
  | call d ts hd hj ih =>
    rw [items_call hd hj, joinCalls] at h
    split at h
    · rename_i e rest hjoined
      rw [hjoined] at ih
      rcases List.mem_cons.mp h with h | h
      · cases h
        exact hd.join (ih (by simp))
      · exact ih (by simp [h])
    · rcases List.mem_cons.mp h with h | h
      · cases h
        exact hd
      · exact ih h

/-- A call before others either takes over the text of the call that follows, or stays as it is. -/
theorem joinBlock_call {c : TextCall} (hc : c.Writes buf) (hj : c.isJoined = false)
    (ts : List Token) :
    (∃ (d e : TextCall) (rest more : List Token), d.Writes buf ∧ e.Writes buf ∧ ts = e.tokens ++ more ∧
      joinBlock buf ts = d.tokens ++ rest ∧
      joinBlock buf (c.tokens ++ ts) = (c.join d).tokens ++ rest) ∨
    textCall? buf ts = none ∧ joinBlock buf (c.tokens ++ ts) = c.tokens ++ joinBlock buf ts := by
  have hitems := items_call hc hj ts
  have hwrites := @joinCalls_writes buf ts
  unfold joinBlock
  rw [hitems, joinCalls]
  cases ht : textCall? buf ts with
  | none =>
    refine .inr ⟨rfl, ?_⟩
    cases ts with
    | nil => rfl
    | cons t ts =>
      rw [items_token ht]
      rfl
  | some d₀ =>
    obtain ⟨hd₀, hj₀, rest₀, rfl⟩ := textCall?_eq_some ht
    have hhead : ∃ d rest, joinCalls (items buf (d₀.tokens ++ rest₀)) = .call d :: rest := by
      rw [items_call hd₀ hj₀, joinCalls]
      split <;> exact ⟨_, _, rfl⟩
    obtain ⟨d, rest, hd⟩ := hhead
    rw [hd] at hwrites ⊢
    exact .inl ⟨d, d₀, rest.flatMap Item.tokens, rest₀, hwrites (by simp), hd₀, rfl, rfl, rfl⟩

theorem joinBlock_eq_cons {ts us : List Token} {u : Token} (h : joinBlock buf ts = u :: us) :
    (∃ ts', ts = u :: ts' ∧ us = joinBlock buf ts') ∨
      ∃ r d rest, u = .ident r ∧ us = .punct d :: rest := by
  cases ts with
  | nil => cases h
  | cons t ts =>
    cases hc : textCall? buf (t :: ts) with
    | none =>
      rw [joinBlock_token hc] at h
      cases h
      exact .inl ⟨ts, rfl, rfl⟩
    | some c =>
      obtain ⟨hw, hj, rest, hr⟩ := textCall?_eq_some hc
      rw [hr] at h
      rcases joinBlock_call hw hj rest with ⟨d, _, more, _, -, -, -, -, hjoin⟩ | ⟨-, hjoin⟩ <;>
        rw [hjoin] at h <;> cases h <;> exact .inr ⟨_, _, _, rfl, rfl⟩

theorem eq_nil_of_joinBlock {ts : List Token} (h : joinBlock buf ts = []) : ts = [] := by
  cases ts using callInduction buf with
  | nil => rfl
  | token t ts ht => simp [joinBlock_token ht] at h
  | call c ts hc hj =>
    rcases joinBlock_call hc hj ts with ⟨d, _, more, _, -, -, -, -, hjoin⟩ | ⟨-, hjoin⟩ <;>
      rw [hjoin] at h <;> cases h

/-- A token that starts no call starts none after the calls behind it are joined. -/
theorem written?_joinBlock {t : Token} {ts : List Token} (h : textCall? buf (t :: ts) = none) :
    written? buf (t :: joinBlock buf ts) = none := by
  cases hw : written? buf (t :: joinBlock buf ts) with
  | none => rfl
  | some x =>
    obtain ⟨c, rest, hc, hcall⟩ := exists_of_written? hw
    have hany := written?_append hcall
    obtain ⟨r, d, m, f, l, s, rfl, -⟩ := hcall
    obtain ⟨rfl, hjoin⟩ := List.cons.inj hc
    -- The four tokens after the first are no calls, so joining left them as they were.
    obtain ⟨ts₁, rfl, h₁⟩ | ⟨_, _, _, hu, -⟩ := joinBlock_eq_cons hjoin
    · obtain ⟨ts₂, rfl, h₂⟩ | ⟨_, _, _, -, hu⟩ := joinBlock_eq_cons h₁.symm
      · obtain ⟨ts₃, rfl, h₃⟩ | ⟨_, _, _, hu, -⟩ := joinBlock_eq_cons h₂.symm
        · obtain ⟨ts₄, rfl, -⟩ | ⟨_, _, _, hu, -⟩ := joinBlock_eq_cons h₃.symm
          · have := (written?_eq_none h).symm.trans (hany ts₄)
            cases this
          · cases hu
        · cases hu
      · cases hu
    · cases hu

/-! ## What joining the calls of one block changes -/

theorem joinWrites_ofToken (t : Token) (es : List Event) :
    joinWrites (Event.ofToken buf t :: es) = Event.ofToken buf t :: joinWrites es := by
  cases t <;> rfl

theorem joinWrites_ofTokens (ts : List Token) (es : List Event) :
    joinWrites (ts.map (Event.ofToken buf) ++ es) = ts.map (Event.ofToken buf) ++ joinWrites es := by
  induction ts with
  | nil => rfl
  | cons t ts ih => rw [List.map_cons, List.cons_append, joinWrites_ofToken, ih, List.cons_append]

theorem absorbsFrom_token (selected : Bool) {t : Token} {ts : List Token}
    (h : textCall? buf (t :: ts) = none) :
    absorbsFrom buf selected (t :: ts) = absorbsFrom buf (t.isPunct '.') ts := by
  simp [absorbsFrom, written?_eq_none h]

/-- A call absorbs another one if it is selected and the other one follows it. -/
theorem absorbsFrom_call (selected : Bool) {c : TextCall} (hc : c.Writes buf) (ts : List Token) :
    absorbsFrom buf selected (c.tokens ++ ts) =
      (selected && (written? buf ts).isSome || absorbsFrom buf false ts) := by
  have hw := written?_tokens hc ts
  obtain ⟨r, d, m, f, l, s, hts, hr, hd, hm, hf, hl, hs, hu⟩ := hc.isTextCall
  have hmethod : written? buf (.ident m :: .group f [.literal l] :: .punct s :: ts) = none := rfl
  have hsign (p : Punct) (us : List Token) : written? buf (.punct p :: us) = none := rfl
  have hgroup (us : List Token) : written? buf (.group f [.literal l] :: us) = none := rfl
  rw [hts] at hw ⊢
  simp only [List.cons_append, List.nil_append] at hw ⊢
  simp [absorbsFrom, hw, hmethod, hsign, hgroup, Token.isPunct, hd, hs]

theorem writeBefore_writeBefore (a b : Text) (es : List Event) :
    writeBefore a (writeBefore b es) = writeBefore (a ++ b) es := by
  unfold writeBefore
  split <;> split <;> simp_all

theorem length_writeBefore (a b : Text) (es : List Event) :
    (writeBefore a es).length = (writeBefore b es).length := by
  cases es with
  | nil => rfl
  | cons e es => cases e <;> rfl

/-- A write stands alone before what does not start with a call. -/
theorem writeBefore_readFrom {ts : List Token} (h : textCall? buf ts = none) (a : Text) :
    writeBefore a (joinWrites (readFrom buf false 0 ts)) =
      .write a :: joinWrites (readFrom buf false 0 ts) := by
  cases ts with
  | nil => rfl
  | cons t ts =>
    rw [readFrom_token _ (.inr (written?_eq_none h)), joinWrites_ofToken]
    cases t <;> rfl

/-- Where no call absorbs another one, joining calls joins the writes. -/
theorem readFrom_joinBlock (selected : Bool) {ts : List Token}
    (h : absorbsFrom buf selected ts = false) :
    readFrom buf selected 0 (joinBlock buf ts) = joinWrites (readFrom buf selected 0 ts) := by
  induction ts using callInduction buf generalizing selected with
  | nil => rfl
  | token t ts ht ih =>
    rw [absorbsFrom_token selected ht] at h
    rw [joinBlock_token ht, readFrom_token selected (.inr (written?_joinBlock ht)), ih _ h,
      readFrom_token selected (.inr (written?_eq_none ht)), joinWrites_ofToken]
  | call c ts hc hj ih =>
    rw [absorbsFrom_call selected hc, Bool.or_eq_false_iff] at h
    have ih := ih false h.2
    rcases joinBlock_call hc hj ts with ⟨d, e, rest, more, hd, he, rfl, hts, hjoin⟩ | ⟨hnone, hjoin⟩
    · cases selected with
      | true => simp [written?_tokens he] at h
      | false =>
        rw [hts, readFrom_call hd] at ih
        rw [hjoin, readFrom_call (hc.join hd), readFrom_call hc, joinWrites, ← ih]
        rfl
    · rw [hjoin]
      cases selected with
      | true => rw [readFrom_selected hc, readFrom_selected hc, ih, joinWrites_ofTokens]
      | false =>
        rw [readFrom_call hc, readFrom_call hc, joinWrites, ih, writeBefore_readFrom hnone]

/-- Where a call absorbs another one, joining calls loses a write. -/
theorem length_joinBlock (selected : Bool) (ts : List Token) :
    (readFrom buf selected 0 (joinBlock buf ts)).length + (absorbsFrom buf selected ts).toNat ≤
      (joinWrites (readFrom buf selected 0 ts)).length := by
  induction ts using callInduction buf generalizing selected with
  | nil => exact Nat.le_refl _
  | token t ts ht ih =>
    have ih := ih (t.isPunct '.')
    rw [joinBlock_token ht, readFrom_token selected (.inr (written?_joinBlock ht)),
      absorbsFrom_token selected ht, readFrom_token selected (.inr (written?_eq_none ht)),
      joinWrites_ofToken, List.length_cons, List.length_cons]
    omega
  | call c ts hc hj ih =>
    have ih := ih false
    have habs := absorbsFrom_call selected hc ts
    rcases joinBlock_call hc hj ts with ⟨d, e, rest, more, hd, he, rfl, hts, hjoin⟩ | ⟨hnone, hjoin⟩
    · rw [hts, readFrom_call hd, readFrom_call he, joinWrites, List.length_cons] at ih
      rw [hjoin, habs, written?_tokens he]
      cases selected with
      | false =>
        rw [readFrom_call (hc.join hd), readFrom_call hc, readFrom_call he, joinWrites, joinWrites,
          writeBefore_writeBefore, length_writeBefore _ e.text]
        simpa using ih
      | true =>
        rw [readFrom_selected (hc.join hd), readFrom_selected hc, joinWrites_ofTokens,
          readFrom_call he, joinWrites]
        simp only [List.length_append, List.length_map, TextCall.tokens, List.length_cons,
          List.length_nil, Option.isSome_some, Bool.and_self, Bool.true_or, Bool.toNat_true]
        omega
    · rw [hjoin, habs, written?_eq_none hnone, Option.isSome_none, Bool.and_false, Bool.false_or]
      cases selected with
      | false =>
        rw [readFrom_call hc, readFrom_call hc, joinWrites, writeBefore_readFrom hnone,
          List.length_cons, List.length_cons]
        omega
      | true =>
        rw [readFrom_selected hc, readFrom_selected hc, joinWrites_ofTokens, List.length_append,
          List.length_append]
        omega

/-! ## Lists of events with neighbouring writes as one -/

theorem joinWrites_writeBefore (a : Text) (es : List Event) :
    joinWrites (writeBefore a es) = writeBefore a (joinWrites es) := by
  cases es with
  | nil => rfl
  | cons e es =>
    cases e with
    | write b => rw [writeBefore, joinWrites, joinWrites, writeBefore_writeBefore]
    | _ => rfl

theorem joinWrites_joinWrites (es : List Event) : joinWrites (joinWrites es) = joinWrites es := by
  induction es with
  | nil => rfl
  | cons e es ih =>
    cases e with
    | write a => rw [joinWrites, joinWrites_writeBefore, ih]
    | _ => simp [joinWrites, ih]

theorem joinedEach_joinWrites (es : List Event) :
    joinedEach (joinWrites es) = joinWrites (joinedEach es) := by
  have hbefore (a : Text) (es : List Event) :
      joinedEach (writeBefore a es) = writeBefore a (joinedEach es) := by
    cases es with
    | nil => rfl
    | cons e es => cases e <;> rfl
  induction es with
  | nil => rfl
  | cons e es ih => cases e <;> simp [joinWrites, joinedEach, Event.joined, hbefore, ih]

mutual

theorem Event.joined_joined : (e : Event) → e.joined.joined = e.joined
  | .write _ => rfl
  | .token _ => rfl
  | .group f es => by
    simp only [Event.joined]
    rw [joinedEach_joinWrites, joinedEach_joinedEach es, joinWrites_joinWrites]

theorem joinedEach_joinedEach : (es : List Event) → joinedEach (joinedEach es) = joinedEach es
  | [] => rfl
  | e :: es => by simp [joinedEach, Event.joined_joined e, joinedEach_joinedEach es]

end

/-- The text of a write. -/
def Event.text? : Event → Option Text
  | .write a => some a
  | _ => none

theorem text?_joined (e : Event) : e.joined.text? = e.text? := by
  cases e <;> rfl

theorem map_text?_joinedEach (es : List Event) :
    (joinedEach es).map Event.text? = es.map Event.text? := by
  induction es with
  | nil => rfl
  | cons e es ih => simp [joinedEach, text?_joined, ih]

theorem length_joinWrites_le (es : List Event) : (joinWrites es).length ≤ es.length := by
  have hbefore (a : Text) (es : List Event) : (writeBefore a es).length ≤ es.length + 1 := by
    unfold writeBefore
    split <;> simp
  induction es with
  | nil => exact Nat.le_refl _
  | cons e es ih =>
    cases e with
    | write a => exact (hbefore a _).trans (by simpa using ih)
    | _ => simpa [joinWrites] using ih

/-- The writes decide how many events are left. -/
theorem length_joinWrites_congr {es fs : List Event} (h : es.map Event.text? = fs.map Event.text?) :
    (joinWrites es).length = (joinWrites fs).length ∧
      ∀ a, (writeBefore a (joinWrites es)).length = (writeBefore a (joinWrites fs)).length := by
  induction es generalizing fs with
  | nil =>
    cases fs with
    | nil => exact ⟨rfl, fun _ => rfl⟩
    | cons f fs => cases h
  | cons e es ih =>
    cases fs with
    | nil => cases h
    | cons f fs =>
      simp only [List.map_cons, List.cons.injEq] at h
      obtain ⟨hlength, hbefore⟩ := ih h.2
      cases e <;> cases f <;> simp only [Event.text?, reduceCtorEq, false_and, Option.some.injEq] at h
      · obtain ⟨rfl, -⟩ := h
        simp only [joinWrites, writeBefore_writeBefore]
        exact ⟨hbefore _, fun a => hbefore _⟩
      all_goals simp [joinWrites, writeBefore, hlength]

/-- If two lists have the same writes at the same places, joining keeps what tells them apart. -/
theorem joinWrites_injective {es fs : List Event} (hw : es.map Event.text? = fs.map Event.text?) :
    (joinWrites es = joinWrites fs → es = fs) ∧
      ∀ a, writeBefore a (joinWrites es) = writeBefore a (joinWrites fs) → es = fs := by
  induction es generalizing fs with
  | nil =>
    cases fs with
    | nil => exact ⟨fun _ => rfl, fun _ _ => rfl⟩
    | cons f fs => cases hw
  | cons e es ih =>
    cases fs with
    | nil => cases hw
    | cons f fs =>
      simp only [List.map_cons, List.cons.injEq] at hw
      obtain ⟨hjoin, hbefore⟩ := ih hw.2
      cases e <;> cases f <;> simp only [Event.text?, reduceCtorEq, false_and, Option.some.injEq] at hw
      · obtain ⟨rfl, -⟩ := hw
        simp only [joinWrites, writeBefore_writeBefore, List.cons.injEq, true_and]
        exact ⟨hbefore _, fun a => hbefore _⟩
      all_goals
        simp only [joinWrites, writeBefore, List.cons.injEq, true_and]
        exact ⟨fun h => ⟨h.1, hjoin h.2⟩, fun _ h => ⟨h.1, hjoin h.2⟩⟩

/-! ## Joining at every depth -/

theorem coalesceEach_call {c : TextCall} (hj : c.isJoined = false) (ts : List Token) :
    coalesceEach buf (c.tokens ++ ts) = c.tokens ++ coalesceEach buf ts := by
  simp [TextCall.tokens, hj, coalesceEach, coalesceToken, joinBlock, items, itemsFrom, textCall?,
    joinCalls, Item.tokens]

theorem coalesceEach_eq_map (ts : List Token) : coalesceEach buf ts = ts.map (coalesceToken buf) := by
  induction ts with
  | nil => rfl
  | cons t ts ih => rw [coalesceEach, ih, List.map_cons]

/-- The tokens of a call stay as they are. -/
theorem coalesceToken_of_mem {c : TextCall} (hj : c.isJoined = false) {t : Token}
    (ht : t ∈ c.tokens) : coalesceToken buf t = t := by
  have h : c.tokens.map (coalesceToken buf) = c.tokens.map id := by
    simpa [coalesceEach_eq_map] using coalesceEach_call hj []
  exact List.map_inj_left.mp h t ht

theorem eq_of_coalesceToken {t : Token} {f : Frame} {l : Literal}
    (h : coalesceToken buf t = .group f [.literal l]) : t = .group f [.literal l] := by
  cases t with
  | group g cs =>
    simp only [coalesceToken, Token.group.injEq] at h
    obtain ⟨rfl, h⟩ := h
    obtain ⟨ts, hcs, hts⟩ | ⟨_, _, _, hu, -⟩ := joinBlock_eq_cons h
    · rw [eq_nil_of_joinBlock hts.symm, coalesceEach_eq_map, List.map_eq_singleton_iff] at hcs
      obtain ⟨u, rfl, hu⟩ := hcs
      cases u with
      | literal => simpa [coalesceToken] using hu
      | _ => simp [coalesceToken] at hu
    · cases hu
  | _ => cases h

/-- A list starts with a call only if it did before its groups were joined. -/
theorem written?_coalesceEach {ts : List Token} (h : textCall? buf ts = none) :
    written? buf (coalesceEach buf ts) = none := by
  have hident {t : Token} {i : Ident} (h : coalesceToken buf t = .ident i) : t = .ident i := by
    cases t <;> simp_all [coalesceToken]
  have hpunct {t : Token} {p : Punct} (h : coalesceToken buf t = .punct p) : t = .punct p := by
    cases t <;> simp_all [coalesceToken]
  cases hw : written? buf (coalesceEach buf ts) with
  | none => rfl
  | some x =>
    obtain ⟨c, rest, hc, hcall⟩ := exists_of_written? hw
    have hany := written?_append hcall
    obtain ⟨r, d, m, f, l, s, rfl, -⟩ := hcall
    rw [coalesceEach_eq_map] at hc
    obtain ⟨_, ts₁, rfl, h₁, hc⟩ := List.map_eq_cons_iff.mp hc
    obtain ⟨_, ts₂, rfl, h₂, hc⟩ := List.map_eq_cons_iff.mp hc
    obtain ⟨_, ts₃, rfl, h₃, hc⟩ := List.map_eq_cons_iff.mp hc
    obtain ⟨_, ts₄, rfl, h₄, hc⟩ := List.map_eq_cons_iff.mp hc
    obtain ⟨_, ts₅, rfl, h₅, -⟩ := List.map_eq_cons_iff.mp hc
    rw [hident h₁, hpunct h₂, hident h₃, eq_of_coalesceToken h₄, hpunct h₅] at h
    have := (written?_eq_none h).symm.trans (hany ts₅)
    cases this

theorem isPunct_coalesceToken (t : Token) : (coalesceToken buf t).isPunct '.' = t.isPunct '.' := by
  cases t <;> rfl

theorem absorbsFrom_coalesceEach (selected : Bool) (ts : List Token) :
    absorbsFrom buf selected (coalesceEach buf ts) = absorbsFrom buf selected ts := by
  induction ts using callInduction buf generalizing selected with
  | nil => rfl
  | token t ts ht ih =>
    have hnone := written?_coalesceEach ht
    rw [coalesceEach] at hnone ⊢
    rw [absorbsFrom_token selected ht, absorbsFrom, hnone, isPunct_coalesceToken, ih]
    simp
  | call c ts hc hj ih =>
    rw [coalesceEach_call hj, absorbsFrom_call selected hc, absorbsFrom_call selected hc, ih]
    cases hts : textCall? buf ts with
    | none => rw [written?_eq_none hts, written?_coalesceEach hts]
    | some d =>
      obtain ⟨hd, hjd, rest, rfl⟩ := textCall?_eq_some hts
      rw [coalesceEach_call hjd, written?_tokens hd, written?_tokens hd]

/-- Reading steps over the tokens whose groups are joined as it does over the others. -/
theorem readFrom_coalesceEach_token (selected : Bool) {t : Token} {ts : List Token}
    (h : textCall? buf (t :: ts) = none) :
    readFrom buf selected 0 (coalesceEach buf (t :: ts)) =
      Event.ofToken buf (coalesceToken buf t) ::
        readFrom buf (t.isPunct '.') 0 (coalesceEach buf ts) := by
  have hnone := written?_coalesceEach h
  rw [coalesceEach] at hnone ⊢
  rw [readFrom_token selected (.inr hnone), isPunct_coalesceToken]

/-- Joining inside groups leaves the writes of the list as they are. -/
theorem map_text?_coalesceEach (selected : Bool) (ts : List Token) :
    (readFrom buf selected 0 (coalesceEach buf ts)).map Event.text? =
      (readFrom buf selected 0 ts).map Event.text? := by
  induction ts using callInduction buf generalizing selected with
  | nil => rfl
  | token t ts ht ih =>
    have htext : (Event.ofToken buf (coalesceToken buf t)).text? = (Event.ofToken buf t).text? := by
      cases t <;> rfl
    rw [readFrom_coalesceEach_token selected ht, readFrom_token selected (.inr (written?_eq_none ht)),
      List.map_cons, List.map_cons, htext, ih]
  | call c ts hc hj ih =>
    rw [coalesceEach_call hj]
    cases selected with
    | false => rw [readFrom_call hc, readFrom_call hc, List.map_cons, List.map_cons, ih]
    | true =>
      rw [readFrom_selected hc, readFrom_selected hc, List.map_append, List.map_append, ih]

theorem joinedEach_append (es fs : List Event) :
    joinedEach (es ++ fs) = joinedEach es ++ joinedEach fs := by
  induction es with
  | nil => rfl
  | cons e es ih => rw [List.cons_append, joinedEach, ih, joinedEach, List.cons_append]

/-- The tokens of a call do nothing that could be joined. -/
theorem joinedEach_tokens {c : TextCall} :
    joinedEach (c.tokens.map (Event.ofToken buf)) = c.tokens.map (Event.ofToken buf) := by
  unfold TextCall.tokens
  cases c.isJoined <;> rfl

/-- If joining inside each token joins its writes, so it does for the list. -/
theorem readFrom_coalesceEach (selected : Bool) {ts : List Token}
    (h : ∀ t ∈ ts, Event.ofToken buf (coalesceToken buf t) = (Event.ofToken buf t).joined) :
    readFrom buf selected 0 (coalesceEach buf ts) = joinedEach (readFrom buf selected 0 ts) := by
  induction ts using callInduction buf generalizing selected with
  | nil => rfl
  | token t ts ht ih =>
    rw [readFrom_coalesceEach_token selected ht, readFrom_token selected (.inr (written?_eq_none ht)),
      joinedEach, h t (by simp), ih _ fun u hu => h u (by simp [hu])]
  | call c ts hc hj ih =>
    have ih := ih false fun u hu => h u (by simp [hu])
    rw [coalesceEach_call hj]
    cases selected with
    | false =>
      rw [readFrom_call hc, readFrom_call hc, joinedEach, ih]
      rfl
    | true =>
      rw [readFrom_selected hc, readFrom_selected hc, ih, joinedEach_append, joinedEach_tokens]

/-- If the list does the same with its groups joined, so does each token. -/
theorem ofToken_of_readFrom (selected : Bool) {ts : List Token}
    (h : joinedEach (readFrom buf selected 0 (coalesceEach buf ts)) =
      joinedEach (readFrom buf selected 0 ts)) :
    ∀ t ∈ ts, (Event.ofToken buf (coalesceToken buf t)).joined = (Event.ofToken buf t).joined := by
  induction ts using callInduction buf generalizing selected with
  | nil => simp
  | token t ts ht ih =>
    rw [readFrom_coalesceEach_token selected ht, readFrom_token selected (.inr (written?_eq_none ht)),
      joinedEach, joinedEach] at h
    obtain ⟨hhead, htail⟩ := List.cons.inj h
    intro u hu
    rcases List.mem_cons.mp hu with rfl | hu
    · exact hhead
    · exact ih _ htail u hu
  | call c ts hc hj ih =>
    have htail : joinedEach (readFrom buf false 0 (coalesceEach buf ts)) =
        joinedEach (readFrom buf false 0 ts) := by
      rw [coalesceEach_call hj] at h
      cases selected with
      | false =>
        rw [readFrom_call hc, readFrom_call hc, joinedEach, joinedEach] at h
        exact (List.cons.inj h).2
      | true =>
        rw [readFrom_selected hc, readFrom_selected hc, joinedEach_append, joinedEach_append] at h
        exact List.append_cancel_left h
    intro u hu
    rcases List.mem_append.mp hu with hu | hu
    · rw [coalesceToken_of_mem hj hu]
    · exact ih false htail u hu

mutual

/-- A token in which no call absorbs another one has its writes joined. -/
theorem ofToken_coalesceToken : (t : Token) → absorbsInside buf t = false →
    Event.ofToken buf (coalesceToken buf t) = (Event.ofToken buf t).joined
  | .ident _, _ => rfl
  | .literal _, _ => rfl
  | .punct _, _ => rfl
  | .group f ts, h => by
    rw [absorbsInside, Bool.or_eq_false_iff] at h
    have hts : absorbsFrom buf false (coalesceEach buf ts) = false := by
      rw [absorbsFrom_coalesceEach, h.1]
    rw [coalesceToken, Event.ofToken, Event.ofToken, Event.joined, readFrom_joinBlock false hts,
      readFrom_coalesceEach false (ofToken_of_absorbsBelow ts h.2)]

theorem ofToken_of_absorbsBelow : (ts : List Token) → absorbsBelow buf ts = false →
    ∀ t ∈ ts, Event.ofToken buf (coalesceToken buf t) = (Event.ofToken buf t).joined
  | [], _ => by simp
  | t :: ts, h => by
    rw [absorbsBelow, Bool.or_eq_false_iff] at h
    intro u hu
    rcases List.mem_cons.mp hu with hu | hu
    · rw [hu]
      exact ofToken_coalesceToken t h.1
    · exact ofToken_of_absorbsBelow ts h.2 u hu

end

/-- Where no call absorbs another one, what is left after joining is what the tokens do, with
neighbouring writes as one call. -/
theorem reading_coalesce {ts : List Token} (h : absorbs buf ts = false) :
    reading buf (coalesce buf ts) = events buf ts := by
  rw [absorbs, Bool.or_eq_false_iff] at h
  have hts : absorbsFrom buf false (coalesceEach buf ts) = false := by
    rw [absorbsFrom_coalesceEach, h.1]
  rw [reading, coalesce, readFrom_joinBlock false hts,
    readFrom_coalesceEach false (ofToken_of_absorbsBelow ts h.2)]
  rfl

/-- If joining keeps the events of a list, no call directly in it absorbs another one, and joining keeps
what each of its tokens does. -/
theorem events_coalesce_inv {ts : List Token} (h : events buf (coalesce buf ts) = events buf ts) :
    absorbsFrom buf false ts = false ∧
      ∀ t ∈ ts, (Event.ofToken buf (coalesceToken buf t)).joined = (Event.ofToken buf t).joined := by
  have hlevel : absorbsFrom buf false (coalesceEach buf ts) = false := by
    have hlength := congrArg List.length h
    have hleft := (length_joinWrites_congr (map_text?_joinedEach (reading buf (coalesce buf ts)))).1
    have hright := (length_joinWrites_congr (map_text?_joinedEach (reading buf ts))).1
    have hsame := (length_joinWrites_congr (@map_text?_coalesceEach buf false ts)).1
    have hle := length_joinWrites_le (reading buf (coalesce buf ts))
    have hlost := @length_joinBlock buf false (coalesceEach buf ts)
    simp only [events, reading, coalesce] at *
    cases habs : absorbsFrom buf false (coalesceEach buf ts) with
    | false => rfl
    | true =>
      rw [habs, Bool.toNat_true] at hlost
      omega
  refine ⟨by rwa [absorbsFrom_coalesceEach] at hlevel, ?_⟩
  apply ofToken_of_readFrom false
  refine (joinWrites_injective ?_).1 ?_
  · rw [map_text?_joinedEach, map_text?_joinedEach, map_text?_coalesceEach]
  · rw [events, reading, coalesce, readFrom_joinBlock false hlevel, joinedEach_joinWrites,
      joinWrites_joinWrites] at h
    exact h

mutual

theorem absorbsInside_eq_false : (t : Token) →
    (Event.ofToken buf (coalesceToken buf t)).joined = (Event.ofToken buf t).joined →
    absorbsInside buf t = false
  | .ident _, _ => rfl
  | .literal _, _ => rfl
  | .punct _, _ => rfl
  | .group f ts, h => by
    rw [coalesceToken, Event.ofToken, Event.ofToken, Event.joined, Event.joined] at h
    injection h with _ h
    obtain ⟨hlevel, hbelow⟩ := events_coalesce_inv h
    rw [absorbsInside, hlevel, absorbsBelow_eq_false ts hbelow, Bool.or_false]

theorem absorbsBelow_eq_false : (ts : List Token) →
    (∀ t ∈ ts, (Event.ofToken buf (coalesceToken buf t)).joined = (Event.ofToken buf t).joined) →
    absorbsBelow buf ts = false
  | [], _ => rfl
  | t :: ts, h => by
    rw [absorbsBelow, absorbsInside_eq_false t (h t (by simp)),
      absorbsBelow_eq_false ts fun u hu => h u (by simp [hu]), Bool.or_false]

end

/-- Joining the calls of a list keeps what its tokens do exactly if nowhere in it a call on a selector
that ends with the name of the buffer is directly followed by a call on the buffer. -/
theorem events_coalesce_iff (buf : Text) (ts : List Token) :
    events buf (coalesce buf ts) = events buf ts ↔ absorbs buf ts = false := by
  constructor
  · intro h
    obtain ⟨hlevel, hbelow⟩ := events_coalesce_inv h
    rw [absorbs, hlevel, absorbsBelow_eq_false ts hbelow, Bool.or_false]
  · intro h
    rw [events, reading_coalesce h, events, joinedEach_joinWrites, joinedEach_joinedEach,
      joinWrites_joinWrites]

end Atmark.Code
