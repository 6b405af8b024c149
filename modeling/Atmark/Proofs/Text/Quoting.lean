import Mathlib.Algebra.Group.Nat.Defs
import Atmark.Proofs.Text.Encoding
import Atmark.Text.Quoted

/-! Quoting against reading a quoted text back. Every piece of a text is written as one escape or as
itself, and reading takes exactly that much, whatever follows (`unquoteFrom_escapePiece`); so a quoted
text is read back byte for byte, stray bytes included (`unquote?_quote`). -/
namespace Atmark.Text

/-! ## Hexadecimal digits -/

theorem hexValue?_hexDigit {d : Nat} (h : d < 16) : hexValue? (hexDigit d) = some d := by
  have hall : ∀ d : Fin 16, hexValue? (hexDigit d) = some d.val := by decide
  exact hall ⟨d, h⟩

theorem hexNumber?_append (acc : Nat) (xs ys : Text) :
    hexNumber? acc (xs ++ ys) = (hexNumber? acc xs).bind (hexNumber? · ys) := by
  induction xs generalizing acc with
  | nil => rfl
  | cons b xs ih =>
    simp only [List.cons_append, hexNumber?]
    split
    · exact ih _
    · rfl

theorem hexNumber?_hex (width acc n : Nat) :
    hexNumber? acc (hex width n) = some (acc * 16 ^ width + n % 16 ^ width) := by
  induction width generalizing n with
  | zero => simp [hex, hexNumber?, Nat.mod_one]
  | succ width ih =>
    have hd : n % 16 < 16 := Nat.mod_lt _ (by decide)
    simp only [hex, hexNumber?_append, ih, Option.bind_some, hexNumber?, hexValue?_hexDigit hd]
    have hm : n % (16 ^ width * 16) = n % 16 + 16 * (n / 16 % 16 ^ width) := by
      rw [Nat.mul_comm, Nat.mod_mul]
    rw [Nat.pow_succ, hm]
    congr 1
    rw [Nat.add_mul, Nat.mul_assoc]
    omega

theorem length_hex (width n : Nat) : (hex width n).length = width := by
  induction width generalizing n with
  | zero => rfl
  | succ width ih => simp [hex, ih]

/-- The digits of a number that fits are read back. -/
theorem hexNumber?_of_lt {width n : Nat} (h : n < 16 ^ width) :
    hexNumber? 0 (hex width n) = some n := by
  rw [hexNumber?_hex, Nat.mod_eq_of_lt h, Nat.zero_mul, Nat.zero_add]

/-! ## One piece -/

theorem unquoteFrom_skip (xs r : Text) : unquoteFrom xs.length (xs ++ r) = unquoteFrom 0 r := by
  induction xs with
  | nil => rfl
  | cons b xs ih => exact ih

/-- An escape is read as what it stands for, whatever follows it. -/
theorem unquoteFrom_escape {e out : Text} {r : Text}
    (h : unescape? (e ++ r) = some (out, e.length)) :
    unquoteFrom 0 (0x5C :: e ++ r) = (unquoteFrom 0 r).map (out ++ ·) := by
  simp only [List.cons_append, unquoteFrom, h, unquoteFrom_skip]
  rfl

theorem encode?_toNat (c : Char) : encode? c.toNat = some (String.utf8EncodeChar c) := by
  have hv : c.toNat.isValidChar := c.valid
  rw [encode?, dif_pos hv, ofNatAux_toNat]

theorem unescape?_byte (b : UInt8) (r : Text) :
    unescape? (0x78 :: hex 2 b.toNat ++ r) = some ([b], 3) := by
  have hnum : hexNumber? 0 (hex 2 b.toNat) = some b.toNat := hexNumber?_of_lt b.toNat_lt
  have hlen : ¬(hex 2 b.toNat ++ r).length < 2 := by
    rw [List.length_append, length_hex]
    omega
  simp only [List.cons_append, unescape?, show shortEscapes.find? (·.2 == 0x78) = none by decide, hlen]
  simp [length_hex, hnum]

theorem unescape?_short {b e : UInt8} (h : (b, e) ∈ shortEscapes) (r : Text) :
    unescape? (e :: r) = some ([b], 1) := by
  have hall : shortEscapes.all (fun p => shortEscapes.find? (·.2 == p.2) = some p) = true := by decide
  have hfind : shortEscapes.find? (·.2 == e) = some (b, e) :=
    of_decide_eq_true (List.all_eq_true.mp hall _ h)
  simp only [unescape?, hfind]

theorem unescape?_four {c : Char} (h : c.toNat < 0x10000) (r : Text) :
    unescape? (0x75 :: hex 4 c.toNat ++ r) = some (String.utf8EncodeChar c, 5) := by
  have hnum : hexNumber? 0 (hex 4 c.toNat) = some c.toNat := hexNumber?_of_lt h
  simp only [List.cons_append, unescape?, show shortEscapes.find? (·.2 == 0x75) = none by decide]
  simp [length_hex, hnum, encode?_toNat]

theorem unescape?_eight (c : Char) (r : Text) :
    unescape? (0x55 :: hex 8 c.toNat ++ r) = some (String.utf8EncodeChar c, 9) := by
  have hc : c.toNat < 16 ^ 8 := by
    rcases c.valid with h | h
    · exact Nat.lt_trans h (by decide)
    · exact Nat.lt_trans h.2 (by decide)
  have hnum := hexNumber?_of_lt hc
  simp only [List.cons_append, unescape?, show shortEscapes.find? (·.2 == 0x55) = none by decide]
  simp [length_hex, hnum, encode?_toNat]

/-- A character that needs no escape stands for itself. -/
theorem unquoteFrom_char {c : Char} (hq : c ≠ '\x22') (hb : c ≠ '\\') (hn : c ≠ '\n') (r : Text) :
    unquoteFrom 0 (String.utf8EncodeChar c ++ r) =
      (unquoteFrom 0 r).map (String.utf8EncodeChar c ++ ·) := by
  have hne {d : Char} (h : c ≠ d) : c.toNat ≠ d.toNat := fun he => h (Char.toNat_inj.mp he)
  cases he : String.utf8EncodeChar c with
  | nil => exact (String.utf8EncodeChar_ne_nil he).elim
  | cons b rest =>
    have hskip : (b :: rest).length - 1 = rest.length := by simp
    rw [List.cons_append, unquoteFrom, if_neg (encode_head_ne (by decide) (hne hq) he),
      if_neg (encode_head_ne (by decide) (hne hn) he),
      if_neg (encode_head_ne (by decide) (hne hb) he)]
    dsimp only
    rw [firstPiece_encode he, hskip, unquoteFrom_skip, Piece.rune, Option.getD_some, he]

theorem unquoteFrom_escapeChar (c : Char) (r : Text) :
    unquoteFrom 0 (escapeChar '\x22' c ++ r) =
      (unquoteFrom 0 r).map (String.utf8EncodeChar c ++ ·) := by
  unfold escapeChar
  split
  · rename_i hc
    rcases (by simpa using hc : c = '\x22' ∨ c = '\\') with rfl | rfl <;>
      exact unquoteFrom_escape (by simp only [String.utf8EncodeChar]; rfl)
  rename_i hc
  obtain ⟨hq, hb⟩ : c ≠ '\x22' ∧ c ≠ '\\' := by simpa using hc
  split
  · rename_i hp
    refine unquoteFrom_char hq hb ?_ r
    rintro rfl
    exact absurd hp (by decide +kernel)
  split
  · rename_i b e hfind
    have hbyte : b.toNat = c.toNat := by simpa using List.find?_some hfind
    have henc : String.utf8EncodeChar c = [b] := by
      have hsmall : shortEscapes.all (·.1.toNat < 0x80) = true := by decide
      have hmem := List.all_eq_true.mp hsmall _ (List.mem_of_find?_eq_some hfind)
      have hlt : b.toNat < 0x80 := of_decide_eq_true hmem
      rw [encode_one (by omega), ← hbyte]
      simp
    rw [henc]
    exact unquoteFrom_escape (e := [e]) (unescape?_short (List.mem_of_find?_eq_some hfind) r)
  split
  · rename_i hsmall
    have hlt : c.toNat < 0x80 := by
      simp only [Bool.or_eq_true, decide_eq_true_eq] at hsmall
      omega
    have hbyte : (UInt8.ofNat c.toNat).toNat = c.toNat := toNat_ofNat_byte (by omega)
    rw [encode_one hlt]
    refine unquoteFrom_escape (e := 0x78 :: hex 2 c.toNat) ?_
    have h := unescape?_byte (UInt8.ofNat c.toNat) r
    rw [hbyte] at h
    simpa [length_hex] using h
  split
  · rename_i hfour
    refine unquoteFrom_escape (e := 0x75 :: hex 4 c.toNat) ?_
    simpa [length_hex] using unescape?_four hfour r
  · refine unquoteFrom_escape (e := 0x55 :: hex 8 c.toNat) ?_
    simpa [length_hex] using unescape?_eight c r

theorem unquoteFrom_bytes (bs r : Text) :
    unquoteFrom 0 ((bs.flatMap fun b => 0x5C :: 0x78 :: hex 2 b.toNat) ++ r) =
      (unquoteFrom 0 r).map (bs ++ ·) := by
  induction bs with
  | nil => simp
  | cons b bs ih =>
    rw [List.flatMap_cons, List.append_assoc]
    have h : ∀ r, unquoteFrom 0 (0x5C :: (0x78 :: hex 2 b.toNat) ++ r) =
        (unquoteFrom 0 r).map ([b] ++ ·) := fun r =>
      unquoteFrom_escape (by simpa [length_hex] using unescape?_byte b r)
    rw [h, ih, Option.map_map]
    rfl

/-- What is written for a piece is read as its bytes, whatever follows. -/
theorem unquoteFrom_escapePiece {p : Piece}
    (hp : ∀ c, p.char = some c → p.bytes = String.utf8EncodeChar c) (r : Text) :
    unquoteFrom 0 (escapePiece p ++ r) = (unquoteFrom 0 r).map (p.bytes ++ ·) := by
  unfold escapePiece
  split
  · rename_i c hc
    rw [hp c hc]
    exact unquoteFrom_escapeChar c r
  · exact unquoteFrom_bytes p.bytes r

/-! ## The whole text -/

theorem bytes_of_mem_piecesFrom {p : Piece} {skip : Nat} {t : Text} (h : p ∈ piecesFrom skip t)
    {c : Char} (hc : p.char = some c) : p.bytes = String.utf8EncodeChar c := by
  induction t generalizing skip with
  | nil => cases skip <;> cases h
  | cons b r ih =>
    cases skip with
    | succ k => exact ih h
    | zero =>
      rcases List.mem_cons.mp h with rfl | h
      · exact firstPiece_bytes_of_char (by rw [← hc])
      · exact ih h

/-- A quoted text stands for the text, byte for byte. -/
theorem unquote?_quote (t : Text) : unquote? (quote t) = some t := by
  have hpieces : ∀ ps : List Piece,
      (∀ p ∈ ps, ∀ c, p.char = some c → p.bytes = String.utf8EncodeChar c) →
      unquoteFrom 0 (ps.flatMap escapePiece ++ [0x22]) = some (joinPieces ps) := by
    intro ps hps
    induction ps with
    | nil => rfl
    | cons p ps ih =>
      rw [List.flatMap_cons, List.append_assoc, unquoteFrom_escapePiece (hps p (by simp)),
        ih fun q hq => hps q (by simp [hq])]
      simp [joinPieces]
  have h := hpieces (pieces t) fun p hp c hc => bytes_of_mem_piecesFrom hp hc
  rw [pieces_bytes] at h
  exact h

end Atmark.Text
