import Atmark.Proofs.Token.Positions

/-! Which bytes tokens span. The lexemes of a scan stand side by side (`scanFrom_adjoining`), so the tokens of
a source do too, and those of a group stand between its delimiters (`LaidOut`, `nest_laidOut`). A token
therefore spans what it spells, and its line and its column can be counted in the bytes before it
(`lex_locates`). -/
namespace Atmark

theorem Cursor.advance_index (c : Cursor) (t : Text) : (c.advance t).index = c.index + t.length := by
  have hfold (ps : List Text.Piece) (c : Cursor) :
      (ps.foldl Cursor.step c).index = c.index + (Text.joinPieces ps).length := by
    induction ps generalizing c with
    | nil => rfl
    | cons p ps ih =>
      have hstep : (c.step p).index = c.index + p.bytes.length := by
        unfold Cursor.step
        split <;> rfl
      rw [List.foldl_cons, ih, hstep]
      simp [Text.joinPieces, Nat.add_assoc]
  rw [Cursor.advance, hfold, Text.pieces_bytes]

namespace Lexeme

theorem unmarked_isSuffix (src : Text) : unmarked src <:+ src := by
  rw [unmarked_eq]
  split
  · exact List.drop_suffix 3 src
  · exact List.suffix_rfl

/-- There is no line break in the mark. -/
theorem count_unmarked (src : Text) : (unmarked src).count 0x0A = src.count 0x0A := by
  rw [unmarked_eq]
  split
  · rename_i hmark
    obtain ⟨rest, rfl⟩ := hmark
    simp
  · rfl

end Lexeme

/-! ## Lexemes stand side by side -/

namespace Lexeme

/-- The white space before a lexeme. -/
def space : Lexeme → Text
  | .opening _ space _ | .closing _ space _ => space
  | .leaf t => t.space

/-- Each lexeme spans the bytes after its white space, and the first one comes after `k` bytes. -/
inductive Adjoining : Nat → List Lexeme → Prop
  | nil {k : Nat} : Adjoining k []
  | cons {k : Nat} {l : Lexeme} {p : Position} {ls : List Lexeme} : l.pos? = some p →
      p.start = k + l.space.length → p.stop + 1 = k + l.source.length →
      Adjoining (k + l.source.length) ls → Adjoining k (l :: ls)

theorem scanFrom_adjoining (n : Nat) (c : Cursor) (t : Text) :
    Adjoining c.index (scanFrom n c t).1 := by
  induction n generalizing c t with
  | zero => exact .nil
  | succ n ih =>
    unfold scanFrom
    dsimp only
    generalize hc' : c.advance (t.takeWhile Shape.isSpace) = c'
    have hindex : c'.index = c.index + (t.takeWhile Shape.isSpace).length := by
      rw [← hc', Cursor.advance_index]
    generalize t.takeWhile Shape.isSpace = space at hindex
    split
    · exact .nil
    · rename_i b r _
      -- a lexeme of the bytes `raw` spans them, and the scan goes on behind them
      have hlexeme (raw rest : Text) (hraw : 0 < raw.length) (l : Lexeme)
          (hl : l.pos? = some (c'.position raw.length)) (hspace : l.space = space)
          (hsource : l.source = space ++ raw) :
          Adjoining c.index (l :: (scanFrom n (c'.advance raw) rest).1) := by
        refine .cons hl ?_ ?_ ?_
        · rw [hspace, Cursor.position_start, hindex]
        · simp only [Cursor.position, hsource, List.length_append, hindex]
          omega
        · have := ih (c'.advance raw) rest
          rwa [Cursor.advance_index, hindex, Nat.add_assoc, ← List.length_append, ← hsource] at this
      split
      · rename_i d hopened
        exact hlexeme [b] r (by simp) _ rfl rfl (by rw [source, opening_of_opened? hopened])
      split
      · exact hlexeme [b] r (by simp) _ rfl rfl rfl
      split
      · exact .nil
      · rename_i s len hs
        have hlength : ((b :: r).take len).length = len := by
          rw [List.length_take, Nat.min_eq_left (Shape.ofText_fits hs).1]
        have hpos := (Shape.ofText_spells hs).1
        have hleaf := hlexeme ((b :: r).take len) ((b :: r).drop len) (by omega)
          (.leaf (s.token (c'.position len) space ((b :: r).take len)))
        rw [hlength] at hleaf
        refine hleaf ?_ (Shape.token_space ..) ?_
        · cases s <;> rfl
        · rw [source, Shape.token_space, Shape.token_source (Shape.ofText_spells hs)]

end Lexeme

/-! ## Tokens stand side by side -/

namespace Token

/-- Each token spans the bytes after its white space, and the first one comes after `k` bytes. The tokens of a
group come after its opening delimiter. -/
inductive LaidOut : Nat → List Token → Prop
  | nil {k : Nat} : LaidOut k []
  | cons {k : Nat} {t : Token} {p : Position} {ts : List Token} : t.pos = some p →
      p.start = k + t.space.length → p.stop + 1 = p.start + t.source.length →
      (∀ f cs, t = .group f cs → f.delim ≠ .none) →
      (∀ f cs, t = .group f cs → LaidOut (p.start + f.delim.opening.length) cs) →
      LaidOut (p.stop + 1) ts → LaidOut k (t :: ts)

namespace LaidOut
variable {k : Nat} {ts us : List Token}

theorem append (hts : LaidOut k ts) (hus : LaidOut (k + (sourceWithSpace ts).length) us) :
    LaidOut k (ts ++ us) := by
  induction hts with
  | nil => simpa [sourceWithSpace] using hus
  | cons hp hstart hstop hdelim hgroup _ _ ih =>
    refine .cons hp hstart hstop hdelim hgroup (ih ?_)
    rw [hstop, hstart]
    simpa [sourceWithSpace, Nat.add_assoc] using hus

theorem of_append (h : LaidOut k (ts ++ us)) : LaidOut (k + (sourceWithSpace ts).length) us := by
  induction ts generalizing k with
  | nil => simpa [sourceWithSpace] using h
  | cons t ts ih =>
    cases h with
    | cons hp hstart hstop _ _ h =>
      have := ih h
      rw [hstop, hstart] at this
      simpa [sourceWithSpace, Nat.add_assoc] using this

/-- The tokens lie in the bytes that they spell. -/
theorem bounds (h : LaidOut k ts) {t : Token} (ht : t ∈ ts) : ∃ p, t.pos = some p ∧
    k ≤ p.start ∧ p.stop + 1 ≤ k + (sourceWithSpace ts).length := by
  obtain ⟨as, bs, rfl⟩ := List.append_of_mem ht
  cases h.of_append with
  | cons hp hstart hstop _ _ _ =>
    refine ⟨_, hp, by omega, ?_⟩
    simp only [sourceWithSpace_append, sourceWithSpace, List.length_append]
    omega

end LaidOut

/-- The open groups begin where the tokens before them end, and the innermost one has its tokens after `j`
bytes. -/
def Opened (k : Nat) : List OpenGroup → Nat → Prop
  | [], j => j = k
  | g :: gs, j => ∃ i, Opened k gs i ∧ LaidOut i g.before.reverse ∧
      g.pos.start = i + (sourceWithSpace g.before.reverse).length + g.space.length ∧
      j = g.pos.start + g.delim.opening.length

theorem nest_laidOut {k j : Nat} {gs : List OpenGroup} {done : List Token} {ls : List Lexeme} {e : Ending}
    {ts : List Token} {trailing : Text} (hgs : Opened k gs j) (hdone : LaidOut j done.reverse)
    (hls : Lexeme.Adjoining (j + (sourceWithSpace done.reverse).length) ls)
    (hleaf : ∀ f cs, .leaf (.group f cs) ∉ ls) (h : nest gs done ls e = .ok (ts, trailing)) :
    LaidOut k ts := by
  fun_induction nest gs done ls e generalizing j with
  | case1 | case3 | case6 | case8 => cases h
  | case2 =>
    cases h
    obtain rfl := hgs
    exact hdone
  | case4 gs done t ls e ih =>
    obtain - | ⟨hp, hstart, hstop, hrest⟩ := hls
    simp only [Lexeme.source, Lexeme.space, List.length_append] at hstart hstop hrest
    have hgroup (f : Frame) (cs : List Token) (ht : t = .group f cs) : False :=
      hleaf f cs (ht ▸ .head _)
    refine ih hgs ?_ ?_ (fun f cs hm => hleaf f cs (.tail _ hm)) h
    · rw [List.reverse_cons]
      exact hdone.append (.cons hp hstart (by omega) (fun f cs ht => (hgroup f cs ht).elim)
        (fun f cs ht => (hgroup f cs ht).elim) .nil)
    · simpa [sourceWithSpace_append, sourceWithSpace, Nat.add_assoc] using hrest
  | case5 gs done pos space d ls e ih =>
    obtain - | ⟨hp, hstart, hstop, hrest⟩ := hls
    cases hp
    simp only [Lexeme.source, Lexeme.space, List.length_append] at hstart hstop hrest
    refine ih (j := pos.start + d.opening.length) ⟨j, hgs, hdone, hstart, rfl⟩ .nil ?_
      (fun f cs hm => hleaf f cs (.tail _ hm)) h
    simpa [sourceWithSpace, hstart, Nat.add_assoc] using hrest
  | case7 g gs done pos space c ls e hc frame =>
    rename_i ih
    obtain - | ⟨hp, hstart, hstop, hrest⟩ := hls
    cases hp
    simp only [Lexeme.source, Lexeme.space, List.length_append] at hstart hstop hrest
    obtain ⟨i, hgs, hbefore, hopen, rfl⟩ := hgs
    have hspelled : (source (.group frame done.reverse)).length = g.delim.opening.length +
        (sourceWithSpace done.reverse).length + space.length + 1 := by
      simp [source, frame, hc, Nat.add_assoc]
    have hend : i + (sourceWithSpace (.group frame done.reverse :: g.before).reverse).length =
        g.pos.start + g.delim.opening.length + (sourceWithSpace done.reverse).length +
          (space.length + [c].length) := by
      simp only [List.reverse_cons, sourceWithSpace_append, sourceWithSpace, List.length_append, hspelled,
        hopen, Token.space, show frame.space = g.space from rfl, List.length_singleton, List.length_nil]
      omega
    refine ih (j := i) hgs ?_ (hend ▸ hrest) (fun f cs hm => hleaf f cs (.tail _ hm)) h
    rw [List.reverse_cons]
    refine hbefore.append (.cons (p := g.pos.withStop pos.stop) rfl hopen ?_ ?_ ?_ .nil)
    · simp only [hspelled, Position.withStop, List.length_singleton] at hstop ⊢
      omega
    · rintro f cs ⟨⟩ hnone
      simp only [frame] at hnone
      simp [hnone, Delimiter.closing] at hc
    · rintro f cs ⟨⟩
      exact hdone

/-! ## What a token spans -/

/-- Every token begins behind the end of the tokens before it. -/
def Ordered (ts : List Token) : Prop :=
  ts.Pairwise fun t u => ∃ p q, t.pos = some p ∧ u.pos = some q ∧ p.stop < q.start

/-- Every token begins and ends inside the position of its group. -/
def Enclosed (p : Position) (ts : List Token) : Prop :=
  ∀ t ∈ ts, ∃ q, t.pos = some q ∧ p.start < q.start ∧ q.stop < p.stop

namespace LaidOut
variable {k : Nat} {ts : List Token}

theorem ordered (h : LaidOut k ts) : Ordered ts := by
  induction h with
  | nil => exact .nil
  | cons hp hstart hstop hdelim hgroup hrest _ ih =>
    refine .cons (fun u hu => ?_) ih
    obtain ⟨q, hq, hlt, -⟩ := hrest.bounds hu
    exact ⟨_, q, hp, hq, hlt⟩

/-- A group spans its delimiters and what is between them. -/
theorem enclosed {f : Frame} {cs : List Token} {p : Position} (hd : f.delim ≠ .none)
    (hstop : p.stop + 1 = p.start + (source (.group f cs)).length)
    (h : LaidOut (p.start + f.delim.opening.length) cs) : Enclosed p cs := by
  intro t ht
  obtain ⟨q, hq, hlo, hhi⟩ := h.bounds ht
  have hopening : f.delim.opening.length = 1 := by cases hf : f.delim <;> simp_all [Delimiter.opening]
  have hclosing : f.delim.closing.length = 1 := by cases hf : f.delim <;> simp_all [Delimiter.closing]
  simp only [source, List.length_append] at hstop
  exact ⟨q, hq, by omega, by omega⟩

/-- A token at any depth spans what it spells, and a group encloses its tokens, which are in order. -/
theorem spells {src before after : Text} (h : LaidOut k ts) {t : Token} (ht : Inside t ts)
    (hk : before.length = k) (hsrc : src = before ++ sourceWithSpace ts ++ after) :
    ∃ p, t.pos = some p ∧ src.extract p.start (p.stop + 1) = t.source ∧
      ∀ f cs, t = .group f cs → Ordered cs ∧ Enclosed p cs := by
  induction ht generalizing k before after with
  | @here ts ht =>
    obtain ⟨as, bs, rfl⟩ := List.append_of_mem ht
    obtain - | @⟨_, _, p, _, hp, hstart, hstop, hdelim, hgroup, -⟩ := h.of_append
    refine ⟨p, hp, ?_, ?_⟩
    · have hbytes : src = before ++ sourceWithSpace as ++ t.space ++ (t.source ++
          (sourceWithSpace bs ++ after)) := by
        simp [hsrc, sourceWithSpace_append, sourceWithSpace]
      have hindex : (before ++ sourceWithSpace as ++ t.space).length = p.start := by
        simp only [List.length_append, hk, hstart]
      rw [List.extract_eq_take_drop, hbytes, hstop, Nat.add_sub_cancel_left, List.drop_left' hindex,
        List.take_left]
    · rintro f cs rfl
      have hcs := hgroup f cs rfl
      exact ⟨hcs.ordered, hcs.enclosed (hdelim f cs rfl) hstop⟩
  | @within f cs ts hg _ ih =>
    obtain ⟨as, bs, rfl⟩ := List.append_of_mem hg
    obtain - | @⟨_, _, p, _, -, hstart, -, -, hgroup, -⟩ := h.of_append
    have hopen : (before ++ sourceWithSpace as ++ f.space ++ f.delim.opening).length =
        p.start + f.delim.opening.length := by
      simp only [List.length_append, hk, hstart, Token.space]
    have hinner : src = before ++ sourceWithSpace as ++ f.space ++ f.delim.opening ++ sourceWithSpace cs ++
        (f.closeSpace ++ f.delim.closing ++ sourceWithSpace bs ++ after) := by
      simp [hsrc, sourceWithSpace_append, sourceWithSpace, source, Token.space]
    exact ih (hgroup f cs rfl) hopen hinner

end LaidOut

end Token

/-- The position is that of the bytes `raw` of the source: it goes from the first to the last of them. Lines
are counted by the line breaks before the first byte, columns by the code points since the last line break or
the mark that may open the source; a byte that encodes no code point counts as one. -/
structure Position.Locates (p : Position) (src raw : Text) : Prop where
  bytes : src.extract p.start (p.stop + 1) = raw
  order : p.start ≤ p.stop
  inside : p.stop < src.length
  line : p.line = (src.take p.start).count 0x0A + 1
  column : p.column = (Text.pieces (Text.lastLine (Lexeme.unmarked (src.take p.start)))).length + 1

theorem Position.Spans.locates {p : Position} {src raw : Text} (h : p.Spans src)
    (hbytes : src.extract p.start (p.stop + 1) = raw) : p.Locates src raw where
  bytes := hbytes
  order := h.order
  inside := h.inside
  line := by rw [h.line, Text.lineAfter_eq_count, Lexeme.count_unmarked]
  column := by rw [h.column, Text.columnAfter_eq_length]

namespace Token

/-- Positions are exact: a token at any depth of a source spans the bytes it spells, a group from its opening
to its closing delimiter; its line and its column are those of its first byte. Tokens beside each other are in
order and share no byte, and those of a group lie between its delimiters. -/
theorem lex_locates {src : Text} {tokens : List Token} {trailing : Text}
    (h : lex src = .ok (tokens, trailing)) : Ordered tokens ∧ ∀ t, Inside t tokens →
      ∃ p, t.pos = some p ∧ p.Locates src t.source ∧
        ∀ f cs, t = .group f cs → Ordered cs ∧ Enclosed p cs := by
  obtain ⟨mark, hmark⟩ := Lexeme.unmarked_isSuffix src
  have hspanned := lex_spanned src
  rw [h] at hspanned
  have hlaid : LaidOut mark.length tokens := by
    have hlength : src.length - (Lexeme.unmarked src).length = mark.length := by
      rw [← congrArg List.length hmark, List.length_append, Nat.add_sub_cancel]
    rw [← hlength]
    have hls : Lexeme.Adjoining (src.length - (Lexeme.unmarked src).length) (Lexeme.scan src).1 :=
      Lexeme.scanFrom_adjoining _ ⟨1, 1, src.length - (Lexeme.unmarked src).length⟩ _
    unfold lex at h
    dsimp only at h
    have hroot (k : Nat) : Opened k [] k := rfl
    have hnone (k : Nat) : LaidOut k (List.reverse []) := .nil
    exact nest_laidOut (hroot _) (hnone _) hls (fun f cs hm => (leaf_of_scanFrom hm).1 f cs rfl) h
  refine ⟨hlaid.ordered, fun t ht => ?_⟩
  have hsrc : src = mark ++ sourceWithSpace tokens ++ trailing := by
    rw [List.append_assoc, lex_unmarked h, hmark]
  obtain ⟨p, hp, hbytes, hgroup⟩ := hlaid.spells ht rfl hsrc
  obtain ⟨q, hq, hspans⟩ := hspanned t ht
  rw [hp] at hq
  cases hq
  exact ⟨p, hp, hspans.locates hbytes, hgroup⟩

/-- After the mark, a group that begins behind a raw string with a line break and holds a string with a stray
byte before an identifier in another script. -/
theorem lex_locates_lines : ∃ tokens trailing,
    lex ([0xEF, 0xBB, 0xBF] ++ utf8 "`a\nb` (\"" ++ [0xFF] ++ utf8 "\" é\n)") = .ok (tokens, trailing) ∧
    ∀ t, Inside t tokens → ∃ p, t.pos = some p ∧
      p.Locates ([0xEF, 0xBB, 0xBF] ++ utf8 "`a\nb` (\"" ++ [0xFF] ++ utf8 "\" é\n)") t.source := by
  have hok : (lex ([0xEF, 0xBB, 0xBF] ++ utf8 "`a\nb` (\"" ++ [0xFF] ++ utf8 "\" é\n)")).isOk = true := by
    decide +kernel
  obtain ⟨⟨tokens, trailing⟩, h⟩ := exists_ok hok
  refine ⟨tokens, trailing, h, fun t ht => ?_⟩
  obtain ⟨p, hp, hlocates, -⟩ := (lex_locates h).2 t ht
  exact ⟨p, hp, hlocates⟩

end Token
end Atmark
