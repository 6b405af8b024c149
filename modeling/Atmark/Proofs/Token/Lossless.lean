import Atmark.Proofs.Text.Encoding
import Atmark.Token.Lex

/-! Lexing loses nothing. Each lexeme of the flat scan spells the bytes it was cut from, so the
lexemes and the last white space spell what was scanned; nesting them into groups moves the
delimiters and the white space into the groups and drops none. `lex_source` puts the two together:
the tokens of a source spell it, without the mark that may open it. -/
namespace Atmark

theorem exists_ok {ε α : Type} {x : Except ε α} (h : x.isOk = true) : ∃ a, x = .ok a := by
  cases x with
  | ok a => exact ⟨a, rfl⟩
  | error e => cases h

theorem Text.eq_append_of_strip? {p t r : Text} (h : strip? p t = some r) : t = p ++ r := by
  fun_induction strip? p t with
  | case1 => cases h; rfl
  | case2 | case4 => cases h
  | case3 p b t ih => rw [ih h]; rfl

theorem Text.not_prefix_of_strip? {p t : Text} (h : strip? p t = none) : ¬ p <+: t := by
  fun_induction strip? p t with
  | case1 => cases h
  | case2 => simp
  | case3 p b t ih => simpa using ih h
  | case4 a p b t hab => simp [hab]

/-! ## A leaf spells its bytes -/

namespace Shape

theorem wordLength_pos {b : UInt8} {r : Text} {c : Char} {bytes : Text}
    (h : Text.firstPiece b r = ⟨some c, bytes⟩) (hc : c = '_' ∨ Text.isLetter c = true) :
    0 < wordLength (b :: r) := by
  have hw : Text.isWordChar (Text.firstPiece b r).rune = true := by
    rw [h]
    rcases hc with rfl | hc
    · rfl
    · simp [Text.isWordChar, Text.Piece.rune, hc]
  have hb := Text.firstPiece_bytes_ne_nil b r
  simp only [wordLength, Text.pieces, Text.piecesFrom, List.takeWhile_cons, hw, if_true,
    Text.joinPieces, List.flatMap_cons, List.length_append]
  have := List.length_pos_iff.mpr hb
  omega

theorem numberRun_pos (hex exponent : Bool) {b : UInt8} (r : Text) (h : isNumberByte b = true) :
    0 < (numberRun hex exponent (b :: r)).1 := by
  simp [numberRun, h]

theorem number_pos {b : UInt8} {r : Text} (h : isNumberByte b = true) :
    0 < (number (b :: r)).1 := by
  have := numberRun_pos (startsHex (b :: r)) false r h
  unfold number
  dsimp only
  split
  · split
    · dsimp only; omega
    · exact this
  · exact this

theorem escapedRune_pos {t : Text} {i n : Nat} (h : escapedRune i t = some n) : 0 < n := by
  induction t generalizing i with
  | nil => cases h
  | cons b r ih =>
    simp only [escapedRune] at h
    split at h
    · cases h
    · split at h
      · cases h; omega
      · split at h
        · cases h
        · exact ih h

theorem runeLength?_pos {t : Text} {n : Nat} (h : runeLength? t = some n) : 0 < n := by
  unfold runeLength? at h
  split at h
  · cases h
  · split at h
    · exact escapedRune_pos h
    · split at h
      · cases h
      · dsimp only at h
        split at h
        · cases h; omega
        · cases h

/-- What is asked of a leaf of `len` bytes at the head of `t`: it takes a byte, and a punctuation
character is spelled by the bytes it takes. -/
def Spells (t : Text) (s : Shape) (len : Nat) : Prop :=
  0 < len ∧ ∀ c, s = .punct c → t.take len = String.utf8EncodeChar c

theorem wordOrPunct_spells {b : UInt8} {r : Text} {s : Shape} {len : Nat}
    (h : wordOrPunct b r = .ok (s, len)) : Spells (b :: r) s len := by
  unfold wordOrPunct at h
  split at h
  · cases h
  · rename_i c bytes hp
    split at h
    · cases h
    · split at h
      · rename_i hc
        cases h
        refine ⟨wordLength_pos hp (by simpa using hc), ?_⟩
        intro c hc; cases hc
      · cases h
        have hb := Text.firstPiece_bytes_ne_nil b r
        rw [hp] at hb
        refine ⟨List.length_pos_iff.mpr hb, ?_⟩
        rintro _ ⟨⟩
        rw [← Text.firstPiece_bytes_of_char hp]
        have ht := Text.firstPiece_isPrefix b r
        rw [hp] at ht
        exact (List.prefix_iff_eq_take.mp ht).symm

theorem ofText_spells {b : UInt8} {r : Text} {s : Shape} {len : Nat}
    (h : ofText b r = .ok (s, len)) : Spells (b :: r) s len := by
  unfold ofText at h
  split at h
  · split at h
    · cases h; exact ⟨by omega, by rintro _ ⟨⟩⟩
    · cases h
  split at h
  · split at h
    · cases h; exact ⟨by omega, by rintro _ ⟨⟩⟩
    · cases h
  split at h
  · split at h
    · rename_i hn
      cases h; exact ⟨runeLength?_pos hn, by rintro _ ⟨⟩⟩
    · exact wordOrPunct_spells h
  split at h
  · rename_i hd
    cases h
    exact ⟨number_pos (by simp_all [isNumberByte]), by rintro _ ⟨⟩⟩
  · exact wordOrPunct_spells h

theorem token_space (s : Shape) (pos : Position) (space raw : Text) :
    (s.token pos space raw).space = space := by
  cases s <;> rfl

theorem token_source {t : Text} {s : Shape} {len : Nat} (h : Spells t s len) (pos : Position)
    (space : Text) : (s.token pos space (t.take len)).source = t.take len := by
  cases s with
  | punct c => simp [token, Token.source, h.2 c rfl]
  | ident | literal => simp [token, Token.source]

end Shape

/-! ## The flat scan -/

namespace Lexeme

/-- The bytes of a lexeme, the white space before it included. -/
def source : Lexeme → Text
  | .opening _ space d => space ++ d.opening
  | .closing _ space c => space ++ [c]
  | .leaf t => t.space ++ t.source

theorem opening_of_opened? {b : UInt8} {d : Delimiter} (h : opened? b = some d) :
    d.opening = [b] := by
  unfold opened? at h
  split at h
  · cases h; simp_all [Delimiter.opening]
  · split at h
    · cases h; simp_all [Delimiter.opening]
    · split at h
      · cases h; simp_all [Delimiter.opening]
      · cases h

/-- A scan with enough steps that ends in white space spells the text. -/
theorem scanFrom_source {n : Nat} {c : Cursor} {t : Text} {ls : List Lexeme} {space : Text}
    (hn : t.length < n) (h : scanFrom n c t = (ls, .blank space)) :
    ls.flatMap source ++ space = t := by
  induction n generalizing c t ls with
  | zero => omega
  | succ n ih =>
    have ht : t.takeWhile Shape.isSpace ++ t.dropWhile Shape.isSpace = t :=
      List.takeWhile_append_dropWhile
    have hl := congrArg List.length ht
    unfold scanFrom at h
    dsimp only at h
    split at h
    · rename_i hd
      cases h
      rw [hd] at ht
      simpa using ht
    · rename_i b r hd
      rw [hd] at ht hl
      simp only [List.length_append, List.length_cons] at hl
      split at h
      · rename_i d ho
        obtain ⟨rfl, he⟩ := Prod.mk.inj h
        have hr := ih (t := r) (by omega) (Prod.ext rfl he)
        rw [List.flatMap_cons, List.append_assoc, hr, source, opening_of_opened? ho,
          List.append_assoc]
        exact ht
      · split at h
        · obtain ⟨rfl, he⟩ := Prod.mk.inj h
          have hr := ih (t := r) (by omega) (Prod.ext rfl he)
          rw [List.flatMap_cons, List.append_assoc, hr, source, List.append_assoc]
          exact ht
        · split at h
          · cases h
          · rename_i s len hs
            have hp := Shape.ofText_spells hs
            obtain ⟨rfl, he⟩ := Prod.mk.inj h
            have hr := ih (t := (b :: r).drop len)
              (by simp only [List.length_drop, List.length_cons]; have := hp.1; omega)
              (Prod.ext rfl he)
            rw [List.flatMap_cons, List.append_assoc, hr, source, Shape.token_space,
              Shape.token_source hp, List.append_assoc, List.take_append_drop]
            exact ht

/-- The mark that may open a source, byte by byte. -/
theorem unmarked_eq (src : Text) :
    unmarked src = if [0xEF, 0xBB, 0xBF] <+: src then src.drop 3 else src := by
  have hm : markBytes = [0xEF, 0xBB, 0xBF] := by decide
  unfold unmarked
  rw [hm]
  cases h : Text.strip? [0xEF, 0xBB, 0xBF] src with
  | some r =>
    obtain rfl := Text.eq_append_of_strip? h
    rw [if_pos (List.prefix_append _ _)]
    rfl
  | none =>
    rw [if_neg (Text.not_prefix_of_strip? h)]
    rfl

end Lexeme

/-! ## Nesting -/

namespace Token

theorem sourceWithSpace_append (ts us : List Token) :
    sourceWithSpace (ts ++ us) = sourceWithSpace ts ++ sourceWithSpace us := by
  induction ts with
  | nil => rfl
  | cons t ts ih => simp [sourceWithSpace, ih]

/-- What the open groups and the tokens in them spell, before the text `inner`. -/
def openSource : List OpenGroup → Text → Text
  | [], inner => inner
  | g :: gs, inner =>
    openSource gs (sourceWithSpace g.before.reverse ++ g.space ++ g.delim.opening ++ inner)

theorem openSource_append (gs : List OpenGroup) (s t : Text) :
    openSource gs (s ++ t) = openSource gs s ++ t := by
  induction gs generalizing s with
  | nil => rfl
  | cons g gs ih => simp only [openSource, ← List.append_assoc, ih]

/-- The tree of some lexemes spells what was open before them, the lexemes and the last white
space. -/
theorem nest_source {gs : List OpenGroup} {done : List Token} {ls : List Lexeme} {e : Ending}
    {ts : List Token} {trailing : Text} (h : nest gs done ls e = .ok (ts, trailing)) :
    ∃ space, e = .blank space ∧ sourceWithSpace ts ++ trailing =
      openSource gs (sourceWithSpace done.reverse) ++ ls.flatMap Lexeme.source ++ space := by
  fun_induction nest gs done ls e with
  | case1 | case3 | case6 | case8 => cases h
  | case2 done space =>
    cases h
    exact ⟨_, rfl, by simp [openSource]⟩
  | case4 gs done t ls e ih =>
    obtain ⟨space, he, hs⟩ := ih h
    refine ⟨space, he, ?_⟩
    simp [hs, sourceWithSpace_append, openSource_append, Lexeme.source, sourceWithSpace]
  | case5 gs done pos sp d ls e ih =>
    obtain ⟨space, he, hs⟩ := ih h
    refine ⟨space, he, ?_⟩
    simp [hs, openSource, openSource_append, Lexeme.source, sourceWithSpace]
  | case7 g gs done pos sp c ls e hc frame ih =>
    obtain ⟨space, he, hs⟩ := ih h
    refine ⟨space, he, ?_⟩
    simp [hs, openSource, openSource_append, Lexeme.source, sourceWithSpace,
      sourceWithSpace_append, source, hc, frame, Token.space]

/-- The tokens of a source and the white space after them spell what is scanned. -/
theorem lex_unmarked {src : Text} {tokens : List Token} {trailing : Text}
    (h : lex src = .ok (tokens, trailing)) :
    sourceWithSpace tokens ++ trailing = Lexeme.unmarked src := by
  unfold lex at h
  dsimp only at h
  obtain ⟨space, he, hs⟩ := nest_source h
  rw [hs]
  exact Lexeme.scanFrom_source (Nat.lt_succ_self _) (Prod.ext rfl he)

/-- The tokens of a source and the white space after them spell the source, byte for byte, without
the mark that may open it. -/
theorem lex_source {src : Text} {tokens : List Token} {trailing : Text}
    (h : lex src = .ok (tokens, trailing)) :
    sourceWithSpace tokens ++ trailing =
      if [0xEF, 0xBB, 0xBF] <+: src then src.drop 3 else src := by
  rw [lex_unmarked h, Lexeme.unmarked_eq]

/-- After the mark, nested groups with white space before both delimiters, and a stray byte in a
string, in a raw string and in a character literal. -/
theorem lex_source_nested : ∃ tokens trailing,
    lex ([0xEF, 0xBB, 0xBF] ++ utf8 " ( [\"" ++ [0xFF] ++ utf8 "\"`" ++ [0xC3] ++ utf8 "`\t] '" ++
      [0x80] ++ utf8 "' )\n") = .ok (tokens, trailing) ∧
    sourceWithSpace tokens ++ trailing =
      utf8 " ( [\"" ++ [0xFF] ++ utf8 "\"`" ++ [0xC3] ++ utf8 "`\t] '" ++ [0x80] ++ utf8 "' )\n" := by
  have hok : (lex ([0xEF, 0xBB, 0xBF] ++ utf8 " ( [\"" ++ [0xFF] ++ utf8 "\"`" ++ [0xC3] ++
      utf8 "`\t] '" ++ [0x80] ++ utf8 "' )\n")).isOk = true := by decide +kernel
  obtain ⟨⟨tokens, trailing⟩, h⟩ := exists_ok hok
  exact ⟨tokens, trailing, h, (lex_source h).trans (by decide +kernel)⟩

end Token
end Atmark
