import Atmark.Proofs.Text.Pieces
import Atmark.Proofs.Token.Inside

/-! Where tokens stand. Every lexeme is closed, so the line and the column after it do not depend on what
follows it, and the cursor of the scan always stands where a code point begins (`scanFrom_laid`). So each
token at any depth spans bytes of its source and has the line and the column of its first byte, and a source
that is not lexed has its fault at bytes of it (`lex_spanned`). -/
namespace Atmark

/-! ## Leaves are closed -/

namespace Shape

/-- The leaf lies in the text, and what follows it does not change its code points. -/
def Fits (t : Text) (len : Nat) : Prop := len ≤ t.length ∧ Text.Closed (t.take len)

/-- A leaf that ends with an ASCII byte. -/
theorem Fits.of_ascii {t a : Text} {x : UInt8} {len : Nat} (hx : x.toNat < 0x80) (hlen : len ≤ t.length)
    (h : t.take len = a ++ [x]) : Fits t len := ⟨hlen, h ▸ .of_ascii hx a⟩

theorem quotedTail_last {q : UInt8} {escapes : Bool} {r : Text} {n : Nat}
    (h : quotedTail q escapes r = some n) : n ≤ r.length ∧ ∃ a, r.take n = a ++ [q] := by
  fun_induction quotedTail q escapes r generalizing n with
  | case1 => cases h
  | case2 =>
    cases h
    exact ⟨by simp, [], by simp⟩
  | case3 => cases h
  | case4 b _ _ e r ih =>
    obtain ⟨m, hm, rfl⟩ := Option.map_eq_some_iff.mp h
    obtain ⟨hle, a, ha⟩ := ih hm
    refine ⟨by simp only [List.length_cons]; omega, b :: e :: a, ?_⟩
    simp [ha]
  | case5 b r _ _ ih =>
    obtain ⟨m, hm, rfl⟩ := Option.map_eq_some_iff.mp h
    obtain ⟨hle, a, ha⟩ := ih hm
    refine ⟨by simp only [List.length_cons]; omega, b :: a, ?_⟩
    simp [ha]

theorem escapedRune_last {i n : Nat} {t : Text} (h : escapedRune i t = some n) :
    ∃ k a, n = i + 1 + k ∧ k ≤ t.length ∧ t.take k = a ++ [0x27] := by
  induction t generalizing i with
  | nil => cases h
  | cons b r ih =>
    simp only [escapedRune] at h
    split at h
    · cases h
    split at h
    · rename_i hb
      cases h
      simp only [Bool.and_eq_true, decide_eq_true_eq] at hb
      exact ⟨1, [], rfl, by simp, by simp [hb.1]⟩
    split at h
    · cases h
    · obtain ⟨k, a, rfl, hk, ha⟩ := ih h
      exact ⟨k + 1, b :: a, by omega, by simpa using hk, by simp [ha]⟩

theorem runeLength?_fits {r : Text} {n : Nat} (h : runeLength? r = some n) : Fits (0x27 :: r) n := by
  unfold runeLength? at h
  split at h
  · cases h
  · rename_i b r
    split at h
    · obtain ⟨k, a, rfl, hk, ha⟩ := escapedRune_last h
      refine .of_ascii (x := 0x27) (a := 0x27 :: b :: a) (by decide) ?_ ?_
      · simp only [List.length_cons]
        omega
      · rw [Nat.add_comm]
        simp [ha]
    · dsimp only at h
      split at h
      · cases h
      · split at h
        · rename_i hq
          cases h
          obtain ⟨hlt, hget⟩ := List.getElem?_eq_some_iff.mp hq
          refine .of_ascii (x := 0x27) (a := 0x27 :: (b :: r).take (Text.firstPiece b r).bytes.length)
            (by decide) ?_ ?_
          · simp only [List.length_cons] at hlt ⊢
            omega
          · rw [List.take_succ_cons, List.take_add_one, hq]
            simp
        · cases h

theorem ascii_of_isNumberByte {b : UInt8} (h : isNumberByte b = true) : b.toNat < 0x80 := by
  simp only [isNumberByte, Bool.or_eq_true, Bool.and_eq_true, decide_eq_true_eq,
    UInt8.le_iff_toNat_le] at h
  rcases h with ((h | h) | h) | h
  · rw [h]
    decide
  all_goals exact Nat.lt_of_le_of_lt h.2 (by decide)

theorem numberRun_ascii (hex exponent : Bool) (t : Text) :
    (numberRun hex exponent t).1 ≤ t.length ∧
      ∀ x ∈ t.take (numberRun hex exponent t).1, x.toNat < 0x80 := by
  induction t generalizing exponent with
  | nil => simp [numberRun]
  | cons b r ih =>
    simp only [numberRun]
    split
    · rename_i hb
      obtain ⟨hle, hall⟩ := ih (!hex && (b = 0x65 || b = 0x45))
      refine ⟨Nat.succ_le_succ hle, ?_⟩
      simpa using ⟨ascii_of_isNumberByte hb, hall⟩
    split
    · rename_i hsign
      obtain ⟨hle, hall⟩ := ih false
      refine ⟨Nat.succ_le_succ hle, ?_⟩
      have hb : b.toNat < 0x80 := by
        simp only [Bool.and_eq_true, Bool.or_eq_true, decide_eq_true_eq] at hsign
        rcases hsign.2 with rfl | rfl <;> decide
      simpa using ⟨hb, hall⟩
    · simp

theorem number_fits (t : Text) : Fits t (number t).1 := by
  obtain ⟨hle, hall⟩ := numberRun_ascii (startsHex t) false t
  have hshort : Fits t (numberRun (startsHex t) false t).1 := ⟨hle, .of_all_ascii hall⟩
  unfold number
  dsimp only
  split
  · rename_i d r hdrop
    split
    · obtain ⟨hle', hall'⟩ := numberRun_ascii (startsHex t) false (d :: r)
      generalize (numberRun (startsHex t) false t).1 = n at *
      generalize (numberRun (startsHex t) false (d :: r)).1 = m at *
      have ht : t = t.take n ++ 0x2E :: d :: r := by rw [← hdrop, List.take_append_drop]
      have hlength : (t.take n).length = n := by rw [List.length_take, Nat.min_eq_left hle]
      constructor
      · have := congrArg List.length ht
        simp only [List.length_append, hlength, List.length_cons] at this hle' ⊢
        omega
      · have htake : t.take (n + 1 + m) = t.take n ++ 0x2E :: (d :: r).take m := by
          conv => lhs; rw [ht, Nat.add_assoc]
          rw [List.take_append, hlength, List.take_of_length_le (by omega), Nat.add_sub_cancel_left,
            Nat.add_comm 1 m, List.take_succ_cons]
        rw [htake]
        refine .of_all_ascii fun x hx => ?_
        rcases List.mem_append.mp hx with hx | hx
        · exact hall x hx
        · rcases List.mem_cons.mp hx with rfl | hx
          · decide
          · exact hall' x hx
    · exact hshort
  · exact hshort

/-- A piece whose character is no replacement is an encoded character. -/
theorem encoded_of_rune {p : Text.Piece} {skip : Nat} {t : Text} (hp : p ∈ Text.piecesFrom skip t)
    (hr : p.rune ≠ Text.replacement) : ∃ c, p.bytes = String.utf8EncodeChar c := by
  induction t generalizing skip with
  | nil => cases skip <;> cases hp
  | cons b r ih =>
    cases skip with
    | succ n => exact ih hp
    | zero =>
      rcases List.mem_cons.mp hp with rfl | hp
      · cases hc : (Text.firstPiece b r).char with
        | none => simp [Text.Piece.rune, hc] at hr
        | some c => exact ⟨c, Text.firstPiece_bytes_of_char (b := b) (r := r) (by rw [← hc])⟩
      · exact ih hp

theorem wordLength_fits (t : Text) : Fits t (wordLength t) := by
  have hbegin : Text.joinPieces ((Text.pieces t).takeWhile (Text.isWordChar ·.rune)) <+: t := by
    refine ⟨Text.joinPieces ((Text.pieces t).dropWhile (Text.isWordChar ·.rune)), ?_⟩
    have := congrArg Text.joinPieces
      (List.takeWhile_append_dropWhile (p := (Text.isWordChar ·.rune)) (l := Text.pieces t))
    rw [Text.pieces_bytes] at this
    rwa [Text.joinPieces, Text.joinPieces, ← List.flatMap_append]
  refine ⟨hbegin.length_le, ?_⟩
  rw [wordLength, ← List.prefix_iff_eq_take.mp hbegin]
  refine .join fun p hp => ?_
  have hword := List.all_eq_true.mp List.all_takeWhile p hp
  refine encoded_of_rune ((List.takeWhile_sublist _).subset hp) ?_
  intro he
  rw [he] at hword
  exact absurd hword (by decide +kernel)

theorem wordOrPunct_fits {b : UInt8} {r : Text} {s : Shape} {len : Nat}
    (h : wordOrPunct b r = .ok (s, len)) : Fits (b :: r) len := by
  unfold wordOrPunct at h
  split at h
  · cases h
  · rename_i c bytes hp
    split at h
    · cases h
    split at h
    · cases h
      exact wordLength_fits _
    · cases h
      have hbegin := Text.firstPiece_isPrefix b r
      rw [hp] at hbegin
      refine ⟨hbegin.length_le, ?_⟩
      rw [← List.prefix_iff_eq_take.mp hbegin, Text.firstPiece_bytes_of_char hp]
      exact .encode c

theorem ofText_fits {b : UInt8} {r : Text} {s : Shape} {len : Nat} (h : ofText b r = .ok (s, len)) :
    Fits (b :: r) len := by
  have hquoted {q : UInt8} {escapes : Bool} {n : Nat} (hq : q.toNat < 0x80)
      (hn : quotedTail q escapes r = some n) : Fits (b :: r) (n + 1) := by
    obtain ⟨hle, a, ha⟩ := quotedTail_last hn
    exact .of_ascii hq (Nat.succ_le_succ hle) (a := b :: a) (by simp [ha])
  unfold ofText at h
  split at h
  · split at h
    · cases h
      exact hquoted (q := 0x22) (by decide) ‹_›
    · cases h
  split at h
  · split at h
    · cases h
      exact hquoted (q := 0x60) (by decide) ‹_›
    · cases h
  split at h
  · rename_i hb
    split at h
    · cases h
      exact hb ▸ runeLength?_fits ‹_›
    · exact wordOrPunct_fits h
  split at h
  · cases h
    exact number_fits _
  · exact wordOrPunct_fits h

/-- The bytes that start no token are there, and no cycle is reported for them. -/
theorem ofText_fault {b : UInt8} {r : Text} {len : Nat} {cause : Fault}
    (h : ofText b r = .error (len, cause)) :
    0 < len ∧ len ≤ (b :: r).length ∧ ∀ chain, cause ≠ .cycle chain := by
  have hword (h : wordOrPunct b r = .error (len, cause)) :
      0 < len ∧ len ≤ (b :: r).length ∧ ∀ chain, cause ≠ .cycle chain := by
    unfold wordOrPunct at h
    split at h
    · cases h
      simp
    · rename_i c bytes hp
      split at h
      · cases h
        have hbegin := Text.firstPiece_isPrefix b r
        have hbytes := Text.firstPiece_bytes_ne_nil b r
        rw [hp] at hbegin hbytes
        exact ⟨List.length_pos_iff.mpr hbytes, hbegin.length_le, by simp⟩
      · split at h <;> cases h
  unfold ofText at h
  split at h
  · split at h <;> cases h
    simp
  split at h
  · split at h <;> cases h
    simp
  split at h
  · split at h
    · cases h
    · exact hword h
  split at h
  · cases h
  · exact hword h

end Shape

/-! ## Lexemes lie in their source -/

theorem Text.strip?_append (p t : Text) : strip? p (p ++ t) = some t := by
  induction p with
  | nil => cases t <;> rfl
  | cons b p ih => simp [strip?, ih]

namespace Lexeme

theorem length_unmarked_le (src : Text) : (unmarked src).length ≤ src.length := by
  unfold unmarked
  cases h : Text.strip? markBytes src with
  | none => exact Nat.le_refl _
  | some r =>
    rw [Text.eq_append_of_strip? h, List.length_append]
    exact Nat.le_add_left _ _

/-- The mark is taken off a beginning of the source as off the whole source. -/
theorem unmarked_take {src before rest : Text} (h : unmarked src = before ++ rest) :
    unmarked (src.take (src.length - rest.length)) = before := by
  cases hs : Text.strip? markBytes src with
  | some r =>
    simp only [unmarked, hs, Option.getD_some] at h
    have htake : src.take (src.length - rest.length) = markBytes ++ before := by
      have hsrc : src = markBytes ++ before ++ rest := by
        rw [Text.eq_append_of_strip? hs, h, List.append_assoc]
      rw [hsrc, @List.length_append _ _ rest, Nat.add_sub_cancel, List.take_left]
    rw [htake, unmarked, Text.strip?_append]
    rfl
  | none =>
    simp only [unmarked, hs, Option.getD_none] at h
    have htake : src.take (src.length - rest.length) = before := by
      rw [h, List.length_append, Nat.add_sub_cancel, List.take_left]
    rw [htake, unmarked]
    cases hb : Text.strip? markBytes before with
    | none => rfl
    | some r =>
      refine (Text.not_prefix_of_strip? hs ?_).elim
      rw [h, Text.eq_append_of_strip? hb, List.append_assoc]
      exact List.prefix_append _ _

end Lexeme

/-- The position lies in the source, and its line and its column are those of its first byte. Columns count
from the end of the mark that may open the source. -/
structure Position.Spans (p : Position) (src : Text) : Prop where
  order : p.start ≤ p.stop
  inside : p.stop < src.length
  line : p.line = Text.lineAfter (Lexeme.unmarked (src.take p.start))
  column : p.column = Text.columnAfter (Lexeme.unmarked (src.take p.start))

namespace Cursor

theorem position_start (c : Cursor) (n : Nat) : (c.position n).start = c.index := rfl

/-- The cursor stands before the rest of the source, where a code point begins. -/
def Stands (c : Cursor) (src rest : Text) : Prop :=
  ∃ before, Lexeme.unmarked src = before ++ rest ∧ Text.Closed before ∧
    c = ⟨Text.lineAfter before, Text.columnAfter before, src.length - rest.length⟩

/-- Line and column go on from those after other code points. -/
theorem foldl_step (cs : List Char) (i : Nat) (ps : List Text.Piece) :
    ps.foldl step ⟨cs.count '\n' + 1, (cs.reverse.takeWhile (· ≠ '\n')).length + 1, i⟩ =
      ⟨(cs ++ ps.map Text.Piece.rune).count '\n' + 1,
        ((cs ++ ps.map Text.Piece.rune).reverse.takeWhile (· ≠ '\n')).length + 1,
        i + (Text.joinPieces ps).length⟩ := by
  induction ps generalizing cs i with
  | nil => simp [Text.joinPieces]
  | cons p ps ih =>
    have hstep : step ⟨cs.count '\n' + 1, (cs.reverse.takeWhile (· ≠ '\n')).length + 1, i⟩ p =
        ⟨(cs ++ [p.rune]).count '\n' + 1,
          ((cs ++ [p.rune]).reverse.takeWhile (· ≠ '\n')).length + 1, i + p.bytes.length⟩ := by
      by_cases hn : p.rune = '\n' <;> simp [step, hn]
    rw [List.foldl_cons, hstep, ih]
    simp [Text.joinPieces, Nat.add_assoc]

namespace Stands
variable {c : Cursor} {src a rest : Text}

theorem length_le (h : c.Stands src rest) : rest.length ≤ src.length := by
  obtain ⟨before, hbefore, -⟩ := h
  have := Lexeme.length_unmarked_le src
  rw [hbefore, List.length_append] at this
  omega

theorem index_eq (h : c.Stands src rest) : c.index = src.length - rest.length := by
  obtain ⟨before, -, -, rfl⟩ := h
  rfl

theorem advance (h : c.Stands src (a ++ rest)) (ha : Text.Closed a) :
    (c.advance a).Stands src rest := by
  have hle := h.length_le
  obtain ⟨before, hbefore, hclosed, rfl⟩ := h
  refine ⟨before ++ a, by simp [hbefore], hclosed.append ha, ?_⟩
  rw [Cursor.advance, Text.lineAfter, Text.columnAfter, foldl_step, Text.pieces_bytes, Text.lineAfter,
    Text.columnAfter, Text.runes, Text.runes, hclosed, List.map_append]
  simp only [List.length_append] at hle ⊢
  congr 1
  omega

theorem spans {n : Nat} (h : c.Stands src rest) (hpos : 0 < n) (hn : n ≤ rest.length) :
    (c.position n).Spans src := by
  have hle := h.length_le
  obtain ⟨before, hbefore, -, rfl⟩ := h
  constructor
  · simp only [position]
    omega
  · simp only [position]
    omega
  · simp [position, Lexeme.unmarked_take hbefore]
  · simp [position, Lexeme.unmarked_take hbefore]

end Stands
end Cursor

namespace Lexeme

/-- The position of a lexeme. -/
def pos? : Lexeme → Option Position
  | .opening pos .. | .closing pos .. => some pos
  | .leaf t => t.pos

/-- Lexemes with positions in the source, none of which starts before the one before it or before the byte
`k`. -/
inductive Laid (src : Text) : Nat → List Lexeme → Prop
  | nil {k : Nat} : Laid src k []
  | cons {k : Nat} {l : Lexeme} {p : Position} {ls : List Lexeme} : l.pos? = some p → p.Spans src →
      k ≤ p.start → (∀ f cs, l ≠ .leaf (.group f cs)) → Laid src p.start ls → Laid src k (l :: ls)

theorem Laid.mono {src : Text} {k k' : Nat} {ls : List Lexeme} (h : Laid src k ls) (hk : k' ≤ k) :
    Laid src k' ls := by
  cases h with
  | nil => exact .nil
  | cons hp hs hstart hleaf hrest => exact .cons hp hs (Nat.le_trans hk hstart) hleaf hrest

theorem isSpace_ascii {b : UInt8} (h : Shape.isSpace b = true) : b.toNat < 0x80 := by
  simp only [Shape.isSpace, Text.isIndent, Text.isLineBreak, Bool.or_eq_true, decide_eq_true_eq] at h
  rcases h with (rfl | rfl) | (rfl | rfl) <;> decide

/-- The bytes that open or close a group. -/
theorem mem_delimiters {b : UInt8} (h : (opened? b).isSome ∨ isCloser b = true) :
    b ∈ ([0x28, 0x5B, 0x7B, 0x29, 0x5D, 0x7D] : Text) := by
  simp only [opened?, isCloser, List.mem_cons, List.not_mem_nil, or_false] at h ⊢
  grind

theorem delimiter_ascii {b : UInt8} (h : (opened? b).isSome ∨ isCloser b = true) : b.toNat < 0x80 := by
  have hall : ([0x28, 0x5B, 0x7B, 0x29, 0x5D, 0x7D] : Text).all (·.toNat < 0x80) = true := by decide
  exact of_decide_eq_true (List.all_eq_true.mp hall b (mem_delimiters h))

/-- The scan lays out its lexemes, and the bytes at which it ends early lie in the source. -/
theorem scanFrom_laid {n : Nat} {c : Cursor} {src t : Text} (h : c.Stands src t) :
    Laid src c.index (scanFrom n c t).1 ∧
      ∀ pos cause, (scanFrom n c t).2 = .broken pos cause →
        pos.Spans src ∧ ∀ chain, cause ≠ .cycle chain := by
  induction n generalizing c t with
  | zero => exact ⟨.nil, by simp [scanFrom]⟩
  | succ n ih =>
    have hspace : Text.Closed (t.takeWhile Shape.isSpace) :=
      .of_all_ascii fun b hb => isSpace_ascii (List.all_eq_true.mp List.all_takeWhile b hb)
    rw [← List.takeWhile_append_dropWhile (p := Shape.isSpace) (l := t)] at h
    have hafter := h.advance hspace
    have hindex : c.index ≤ (c.advance (t.takeWhile Shape.isSpace)).index := by
      rw [h.index_eq, hafter.index_eq, List.length_append]
      omega
    unfold scanFrom
    dsimp only
    generalize c.advance (t.takeWhile Shape.isSpace) = c' at hafter hindex
    split
    · exact ⟨.nil, by simp⟩
    · rename_i b r hd
      rw [hd] at hafter
      -- what a lexeme of `len` bytes does: it spans them, and the rest is laid out after them
      have hlexeme (len : Nat) (hpos : 0 < len) (hlen : len ≤ (b :: r).length)
          (hclosed : Text.Closed ((b :: r).take len)) (l : Lexeme)
          (hl : l.pos? = some (c'.position len)) (hleaf : ∀ f cs, l ≠ .leaf (.group f cs)) :
          Laid src c.index (l :: (scanFrom n (c'.advance ((b :: r).take len)) ((b :: r).drop len)).1) ∧
          ∀ pos cause,
            (scanFrom n (c'.advance ((b :: r).take len)) ((b :: r).drop len)).2 = .broken pos cause →
            pos.Spans src ∧ ∀ chain, cause ≠ .cycle chain := by
        have hspans := hafter.spans hpos hlen
        rw [← List.take_append_drop len (b :: r)] at hafter
        have hrest := hafter.advance hclosed
        obtain ⟨hlaid, hbroken⟩ := ih hrest
        refine ⟨.cons hl hspans hindex hleaf (hlaid.mono ?_), hbroken⟩
        rw [hrest.index_eq, Cursor.position_start, hafter.index_eq, List.length_append]
        omega
      split
      · rename_i d hopened
        refine hlexeme 1 (by decide) (by simp) ?_ _ rfl (by simp)
        exact .of_all_ascii (by simpa using delimiter_ascii (.inl (hopened ▸ rfl)))
      split
      · rename_i hcloser
        refine hlexeme 1 (by decide) (by simp) ?_ _ rfl (by simp)
        exact .of_all_ascii (by simpa using delimiter_ascii (.inr hcloser))
      split
      · rename_i len cause hfault
        obtain ⟨hpos, hlen, hcause⟩ := Shape.ofText_fault hfault
        refine ⟨.nil, ?_⟩
        rintro pos cause ⟨⟩
        exact ⟨hafter.spans hpos hlen, hcause⟩
      · rename_i s len hs
        obtain ⟨hlen, hclosed⟩ := Shape.ofText_fits hs
        refine hlexeme len (Shape.ofText_spells hs).1 hlen hclosed _ ?_ ?_
        · cases s <;> rfl
        · cases s <;> simp [Shape.token]

end Lexeme

/-! ## Tokens lie in their source -/

namespace Token

/-- Every token at any depth has a position in the source. -/
def Spanned (src : Text) (ts : List Token) : Prop :=
  ∀ t, Inside t ts → ∃ p, t.pos = some p ∧ p.Spans src

namespace Spanned
variable {src : Text} {t : Token} {ts : List Token}

theorem nil : Spanned src [] := by
  rintro t (h | h) <;> cases h

theorem cons {p : Position} (hp : t.pos = some p) (hs : p.Spans src)
    (hg : ∀ f cs, t = .group f cs → Spanned src cs) (h : Spanned src ts) : Spanned src (t :: ts) := by
  intro u hu
  cases hu with
  | here hu =>
    rcases List.mem_cons.mp hu with rfl | hu
    · exact ⟨p, hp, hs⟩
    · exact h u (.here hu)
  | within hf hu =>
    rcases List.mem_cons.mp hf with hf | hf
    · exact hg _ _ hf.symm u hu
    · exact h u (.within hf hu)

theorem reverse (h : Spanned src ts) : Spanned src ts.reverse :=
  fun u hu => h u (hu.mono fun _ => List.mem_reverse.mp)

end Spanned

/-- A fault of the source at a position in it. -/
def FaultIn (src : Text) (e : Error) : Prop :=
  ∃ pos cause, e = .fault [] pos cause ∧ pos.Spans src ∧ ∀ chain, cause ≠ .cycle chain

/-- A group spans what is between its delimiters, and it is where its opening delimiter is. -/
theorem nest_spanned {src : Text} {gs : List OpenGroup} {done : List Token} {ls : List Lexeme}
    {e : Ending} {k : Nat} (hls : Lexeme.Laid src k ls) (hdone : Spanned src done)
    (hgs : ∀ g ∈ gs, g.pos.Spans src ∧ g.pos.start ≤ k ∧ Spanned src g.before)
    (he : ∀ pos cause, e = .broken pos cause → pos.Spans src ∧ ∀ chain, cause ≠ .cycle chain) :
    match nest gs done ls e with
    | .ok (ts, _) => Spanned src ts
    | .error e => FaultIn src e := by
  fun_induction nest gs done ls e generalizing k with
  | case1 _ _ pos cause => exact ⟨pos, cause, rfl, he pos cause rfl⟩
  | case2 => exact hdone.reverse
  | case3 g gs _ _ => exact ⟨g.pos, _, rfl, (hgs g (.head _)).1, by simp⟩
  | case4 gs done t ls e ih =>
    obtain - | ⟨hp, hs, hstart, hleaf, hrest⟩ := hls
    refine ih hrest (.cons hp hs (fun f cs ht => (hleaf f cs (ht ▸ rfl)).elim) hdone) ?_ he
    exact fun g hg => ⟨(hgs g hg).1, Nat.le_trans (hgs g hg).2.1 hstart, (hgs g hg).2.2⟩
  | case5 gs done pos space d ls e ih =>
    obtain - | ⟨hp, hs, hstart, -, hrest⟩ := hls
    cases hp
    refine ih hrest .nil ?_ he
    intro g hg
    rcases List.mem_cons.mp hg with rfl | hg
    · exact ⟨hs, Nat.le_refl _, hdone⟩
    · exact ⟨(hgs g hg).1, Nat.le_trans (hgs g hg).2.1 hstart, (hgs g hg).2.2⟩
  | case6 =>
    obtain - | ⟨hp, hs, -⟩ := hls
    cases hp
    exact ⟨_, _, rfl, hs, by simp⟩
  | case7 g gs done pos space c ls e _ frame =>
    rename_i ih
    obtain - | ⟨hp, hs, hstart, -, hrest⟩ := hls
    cases hp
    obtain ⟨hopen, hbefore, hspanned⟩ := hgs g (.head _)
    have hgroup : (g.pos.withStop pos.stop).Spans src :=
      ⟨Nat.le_trans (Nat.le_trans hbefore hstart) hs.order, hs.inside, hopen.line, hopen.column⟩
    refine ih hrest (.cons rfl hgroup ?_ hspanned) ?_ he
    · intro f cs ht
      cases ht
      exact hdone.reverse
    · intro g' hg'
      obtain ⟨hopen', hbefore', hspanned'⟩ := hgs g' (.tail _ hg')
      exact ⟨hopen', Nat.le_trans hbefore' hstart, hspanned'⟩
  | case8 =>
    obtain - | ⟨hp, hs, -⟩ := hls
    cases hp
    exact ⟨_, _, rfl, hs, by simp⟩

/-- Every token of a source spans bytes of it, and a source that is not lexed has a fault in it. -/
theorem lex_spanned (src : Text) :
    match lex src with
    | .ok (ts, _) => Spanned src ts
    | .error e => FaultIn src e := by
  have hstart : Cursor.Stands ⟨1, 1, src.length - (Lexeme.unmarked src).length⟩ src
      (Lexeme.unmarked src) := ⟨[], rfl, .nil, rfl⟩
  obtain ⟨hlaid, hbroken⟩ := Lexeme.scanFrom_laid (n := (Lexeme.unmarked src).length + 1) hstart
  exact nest_spanned hlaid .nil (by simp) hbroken

end Token
end Atmark
