import Atmark.Text.Basic

/-! Decoding against encoding. `decode?` finds a code point at the head of a text exactly when the
text begins with its encoding, so a piece is either an encoded code point or one stray byte, and
never loses a byte of what it was cut from. -/
namespace Atmark.Text

theorem scalar?_eq_some {least v n m : Nat} {c : Char} (h : scalar? least v n = some (c, m)) :
    c.toNat = v ∧ m = n ∧ least ≤ v := by
  by_cases hv : v.isValidChar
  · rw [scalar?, dif_pos hv] at h
    by_cases hl : least ≤ v
    · rw [if_pos hl] at h
      obtain ⟨hc, hm⟩ := Prod.mk.inj (Option.some.inj h)
      refine ⟨?_, hm.symm, hl⟩
      subst hc
      rfl
    · rw [if_neg hl] at h
      cases h
  · rw [scalar?, dif_neg hv] at h
    cases h

theorem ofNatAux_toNat {c : Char} (h : c.toNat.isValidChar) : Char.ofNatAux c.toNat h = c :=
  Char.ext (UInt32.toNat_inj.mp rfl)

theorem scalar?_toNat {least n : Nat} {c : Char} (h : least ≤ c.toNat) :
    scalar? least c.toNat n = some (c, n) := by
  have hv : c.toNat.isValidChar := c.valid
  rw [scalar?, dif_pos hv, if_pos h, ofNatAux_toNat]

theorem isTail_iff {b : UInt8} : isTail b = true ↔ 0x80 ≤ b.toNat ∧ b.toNat < 0xC0 := by
  simp only [isTail, beq_iff_eq]
  omega

theorem byte_eq_ofNat {b : UInt8} {n : Nat} (h : b.toNat = n) : b = UInt8.ofNat n := by
  subst h; simp

/-! ## The encoding by the size of the code point -/

theorem encode_one {c : Char} (h : c.toNat < 0x80) :
    String.utf8EncodeChar c = [UInt8.ofNat c.toNat] := by
  simp only [Char.toNat] at *
  simp only [String.utf8EncodeChar]
  rw [if_pos (by omega)]

theorem encode_two {c : Char} (hl : 0x80 ≤ c.toNat) (hu : c.toNat < 0x800) :
    String.utf8EncodeChar c =
      [UInt8.ofNat (c.toNat / 64 + 0xC0), UInt8.ofNat (c.toNat % 64 + 0x80)] := by
  simp only [Char.toNat] at *
  simp only [String.utf8EncodeChar]
  rw [if_neg (by omega), if_pos (by omega), Nat.mod_eq_of_lt (by omega)]

theorem encode_three {c : Char} (hl : 0x800 ≤ c.toNat) (hu : c.toNat < 0x10000) :
    String.utf8EncodeChar c =
      [UInt8.ofNat (c.toNat / 4096 + 0xE0), UInt8.ofNat (c.toNat / 64 % 64 + 0x80),
        UInt8.ofNat (c.toNat % 64 + 0x80)] := by
  simp only [Char.toNat] at *
  simp only [String.utf8EncodeChar]
  rw [if_neg (by omega), if_neg (by omega), if_pos (by omega),
    Nat.mod_eq_of_lt (show c.val.toNat / 4096 < 0x10 by omega)]

theorem encode_four {c : Char} (hl : 0x10000 ≤ c.toNat) :
    String.utf8EncodeChar c =
      [UInt8.ofNat (c.toNat / 262144 + 0xF0), UInt8.ofNat (c.toNat / 4096 % 64 + 0x80),
        UInt8.ofNat (c.toNat / 64 % 64 + 0x80), UInt8.ofNat (c.toNat % 64 + 0x80)] := by
  have hv : c.toNat < 0x110000 := by
    rcases c.valid with h | h
    · exact Nat.lt_trans h (by decide)
    · exact h.2
  simp only [Char.toNat] at *
  simp only [String.utf8EncodeChar]
  rw [if_neg (by omega), if_neg (by omega), if_neg (by omega),
    Nat.mod_eq_of_lt (show c.val.toNat / 262144 < 0x08 by omega)]

/-! ## Decoding -/

/-- What is decoded stands at the head of the text in its encoding. -/
theorem eq_encode_of_decode? {t : Text} {c : Char} {n : Nat} (h : decode? t = some (c, n)) :
    ∃ r, t = String.utf8EncodeChar c ++ r ∧ n = (String.utf8EncodeChar c).length := by
  unfold decode? at h
  split at h
  · cases h
  · rename_i a r
    have ha := a.toNat_lt
    simp only at h
    split at h
    · obtain ⟨hv, rfl, _⟩ := scalar?_eq_some h
      rw [encode_one (by omega), hv]
      exact ⟨r, by simp, rfl⟩
    split at h
    · cases h
    split at h
    · split at h
      · rename_i b r'
        split at h
        · rename_i hb
          obtain ⟨hv, rfl, hl⟩ := scalar?_eq_some h
          simp only [isTail_iff, tailBits] at hb hv hl
          rw [encode_two (by omega) (by omega)]
          refine ⟨r', ?_, rfl⟩
          rw [byte_eq_ofNat (b := a) (n := c.toNat / 64 + 0xC0) (by omega),
            byte_eq_ofNat (b := b) (n := c.toNat % 64 + 0x80) (by omega)]
          rfl
        · cases h
      · cases h
    split at h
    · split at h
      · rename_i b d r'
        split at h
        · rename_i hb
          obtain ⟨hv, rfl, hl⟩ := scalar?_eq_some h
          simp only [Bool.and_eq_true, isTail_iff, tailBits] at hb hv hl
          rw [encode_three (by omega) (by omega)]
          refine ⟨r', ?_, rfl⟩
          rw [byte_eq_ofNat (b := a) (n := c.toNat / 4096 + 0xE0) (by omega),
            byte_eq_ofNat (b := b) (n := c.toNat / 64 % 64 + 0x80) (by omega),
            byte_eq_ofNat (b := d) (n := c.toNat % 64 + 0x80) (by omega)]
          rfl
        · cases h
      · cases h
    split at h
    · split at h
      · rename_i b d e r'
        split at h
        · rename_i hb
          obtain ⟨hv, rfl, hl⟩ := scalar?_eq_some h
          simp only [Bool.and_eq_true, isTail_iff, tailBits] at hb hv hl
          rw [encode_four (by omega)]
          refine ⟨r', ?_, rfl⟩
          rw [byte_eq_ofNat (b := a) (n := c.toNat / 262144 + 0xF0) (by omega),
            byte_eq_ofNat (b := b) (n := c.toNat / 4096 % 64 + 0x80) (by omega),
            byte_eq_ofNat (b := d) (n := c.toNat / 64 % 64 + 0x80) (by omega),
            byte_eq_ofNat (b := e) (n := c.toNat % 64 + 0x80) (by omega)]
          rfl
        · cases h
      · cases h
    · cases h

theorem toNat_ofNat_byte {n : Nat} (h : n < 256) : (UInt8.ofNat n).toNat = n := by
  simpa using Nat.mod_eq_of_lt h

/-- An encoded code point is decoded, whatever follows it. -/
theorem decode?_encode (c : Char) (r : Text) :
    decode? (String.utf8EncodeChar c ++ r) = some (c, (String.utf8EncodeChar c).length) := by
  have hv : c.toNat < 0x110000 := by
    rcases c.valid with h | h
    · exact Nat.lt_trans h (by decide)
    · exact h.2
  by_cases h1 : c.toNat < 0x80
  · rw [encode_one h1]
    simp only [List.cons_append, List.nil_append, decode?, List.length_cons, List.length_nil]
    rw [toNat_ofNat_byte (by omega), if_pos h1, scalar?_toNat (by omega)]
  by_cases h2 : c.toNat < 0x800
  · rw [encode_two (by omega) h2]
    simp only [List.cons_append, List.nil_append, decode?, List.length_cons, List.length_nil]
    rw [toNat_ofNat_byte (by omega), if_neg (by omega), if_neg (by omega), if_pos (by omega),
      if_pos (by rw [isTail_iff, toNat_ofNat_byte] <;> omega), tailBits,
      toNat_ofNat_byte (by omega),
      show (c.toNat / 64 + 192) % 32 * 64 + (c.toNat % 64 + 128) % 64 = c.toNat by omega,
      scalar?_toNat (by omega)]
  by_cases h3 : c.toNat < 0x10000
  · rw [encode_three (by omega) h3]
    simp only [List.cons_append, List.nil_append, decode?, List.length_cons, List.length_nil]
    rw [toNat_ofNat_byte (by omega), if_neg (by omega), if_neg (by omega), if_neg (by omega),
      if_pos (by omega),
      if_pos (by
        simp only [Bool.and_eq_true, isTail_iff]
        rw [toNat_ofNat_byte, toNat_ofNat_byte] <;> omega),
      tailBits, tailBits, toNat_ofNat_byte (by omega), toNat_ofNat_byte (by omega),
      show ((c.toNat / 4096 + 224) % 16 * 64 + (c.toNat / 64 % 64 + 128) % 64) * 64 +
        (c.toNat % 64 + 128) % 64 = c.toNat by omega,
      scalar?_toNat (by omega)]
  · rw [encode_four (by omega)]
    simp only [List.cons_append, List.nil_append, decode?, List.length_cons, List.length_nil]
    rw [toNat_ofNat_byte (by omega), if_neg (by omega), if_neg (by omega), if_neg (by omega),
      if_neg (by omega), if_pos (by omega),
      if_pos (by
        simp only [Bool.and_eq_true, isTail_iff]
        rw [toNat_ofNat_byte, toNat_ofNat_byte, toNat_ofNat_byte] <;> omega),
      tailBits, tailBits, tailBits, toNat_ofNat_byte (by omega), toNat_ofNat_byte (by omega),
      toNat_ofNat_byte (by omega),
      show (((c.toNat / 262144 + 240) % 8 * 64 + (c.toNat / 4096 % 64 + 128) % 64) * 64 +
        (c.toNat / 64 % 64 + 128) % 64) * 64 + (c.toNat % 64 + 128) % 64 = c.toNat by omega,
      scalar?_toNat (by omega)]

/-- The encoding of a character starts with an ASCII byte only if it is that character. -/
theorem encode_head_ne {c : Char} {a b : UInt8} {r : Text} (ha : a.toNat < 0x80)
    (hc : c.toNat ≠ a.toNat) (h : String.utf8EncodeChar c = b :: r) : b ≠ a := by
  rintro rfl
  have hd := decode?_encode c []
  rw [h, List.append_nil] at hd
  simp only [decode?, ha, if_true] at hd
  exact hc (scalar?_eq_some hd).1

/-! ## Pieces -/

/-- The piece of an encoded code point is its encoding. -/
theorem firstPiece_bytes_of_char {b : UInt8} {r bytes : Text} {c : Char}
    (h : firstPiece b r = ⟨some c, bytes⟩) : bytes = String.utf8EncodeChar c := by
  unfold firstPiece at h
  split at h
  · rename_i c' n hd
    obtain ⟨hc, hb⟩ := Piece.mk.inj h
    cases hc
    obtain ⟨r', ht, hn⟩ := eq_encode_of_decode? hd
    rw [← hb, ← List.take_succ_cons, ht, hn]
    have hp := List.length_pos_iff.mpr (String.utf8EncodeChar_ne_nil (c := c))
    rw [Nat.sub_add_cancel hp, List.take_left]
  · cases h

/-- A piece takes bytes from the head of the text. -/
theorem firstPiece_isPrefix (b : UInt8) (r : Text) : (firstPiece b r).bytes <+: b :: r := by
  unfold firstPiece
  split
  · exact (List.cons_prefix_cons).mpr ⟨rfl, List.take_prefix _ _⟩
  · exact (List.cons_prefix_cons).mpr ⟨rfl, List.nil_prefix⟩

/-- A piece takes at least one byte. -/
theorem firstPiece_bytes_ne_nil (b : UInt8) (r : Text) : (firstPiece b r).bytes ≠ [] := by
  unfold firstPiece
  split <;> simp

/-- The first piece of a text that begins with an encoded character. -/
theorem firstPiece_encode {c : Char} {b : UInt8} {bs : Text} (h : String.utf8EncodeChar c = b :: bs)
    (r : Text) : firstPiece b (bs ++ r) = ⟨some c, b :: bs⟩ := by
  have hd := decode?_encode c r
  rw [h, List.cons_append] at hd
  simp [firstPiece, hd]

/-- A piece without a code point is a byte at which none is encoded. -/
theorem firstPiece_eq_stray {b : UInt8} {r bytes : Text} (h : firstPiece b r = ⟨none, bytes⟩) :
    bytes = [b] ∧ decode? (b :: r) = none := by
  unfold firstPiece at h
  split at h
  · cases h
  · rename_i hd
    cases h
    exact ⟨rfl, hd⟩

/-- A text begins with the encoding of one character only. -/
theorem encode_append_inj {c d : Char} {r s : Text}
    (h : String.utf8EncodeChar c ++ r = String.utf8EncodeChar d ++ s) : c = d ∧ r = s := by
  have hd := decode?_encode d s
  rw [← h, decode?_encode] at hd
  obtain rfl : c = d := by simpa using congrArg (Option.map Prod.fst) hd
  exact ⟨rfl, List.append_cancel_left h⟩

/-- Every piece of a text was cut off at some place in it. -/
theorem exists_firstPiece {p : Piece} {skip : Nat} {t : Text} (hp : p ∈ piecesFrom skip t) :
    ∃ b r, p = firstPiece b r := by
  induction t generalizing skip with
  | nil => cases skip <;> cases hp
  | cons b r ih =>
    cases skip with
    | succ n => exact ih hp
    | zero =>
      rcases List.mem_cons.mp hp with rfl | hp
      · exact ⟨b, r, rfl⟩
      · exact ih hp

end Atmark.Text
