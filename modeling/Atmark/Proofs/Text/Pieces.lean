import Atmark.Proofs.Text.Encoding

/-! Where a text can be cut. A text is closed if what follows it never changes its code points
(`Closed`): one that ends with an ASCII byte is closed, and so are encoded code points. Line and column after
a text are counted in its code points, so they go on from the end of a closed text. -/
namespace Atmark.Text

/-- The code points of the text stay what they are, whatever follows it. -/
def Closed (a : Text) : Prop := ∀ b, pieces (a ++ b) = pieces a ++ pieces b

theorem piecesFrom_eq (skip : Nat) (t : Text) : piecesFrom skip t = pieces (t.drop skip) := by
  induction t generalizing skip with
  | nil => cases skip <;> rfl
  | cons b r ih =>
    cases skip with
    | zero => rfl
    | succ n => exact ih n

theorem pieces_cons (b : UInt8) (r : Text) :
    pieces (b :: r) = firstPiece b r :: pieces (r.drop ((firstPiece b r).bytes.length - 1)) := by
  rw [← piecesFrom_eq]
  rfl

namespace Closed

theorem nil : Closed [] := fun _ => rfl

theorem append {a b : Text} (ha : Closed a) (hb : Closed b) : Closed (a ++ b) := by
  intro c
  rw [List.append_assoc, ha, hb, ha, List.append_assoc]

end Closed

/-- Only the first byte of an encoded code point can be an ASCII byte. -/
theorem encode_tail {c : Char} {x : UInt8} (h : x ∈ (String.utf8EncodeChar c).tail) :
    0x80 ≤ x.toNat := by
  have hv : c.toNat < 0x110000 := by
    rcases c.valid with h | h
    · exact Nat.lt_trans h (by decide)
    · exact h.2
  have hbyte (n : Nat) (hn : n < 64) : 0x80 ≤ (UInt8.ofNat (n + 0x80)).toNat := by
    rw [toNat_ofNat_byte (by omega)]
    omega
  by_cases h1 : c.toNat < 0x80
  · simp [encode_one h1] at h
  by_cases h2 : c.toNat < 0x800
  · rw [encode_two (by omega) h2] at h
    obtain rfl := List.mem_singleton.mp h
    exact hbyte _ (Nat.mod_lt _ (by decide))
  by_cases h3 : c.toNat < 0x10000
  · rw [encode_three (by omega) h3] at h
    simp only [List.tail_cons, List.mem_cons, List.not_mem_nil, or_false] at h
    rcases h with rfl | rfl
    all_goals exact hbyte _ (Nat.mod_lt _ (by decide))
  · rw [encode_four (by omega)] at h
    simp only [List.tail_cons, List.mem_cons, List.not_mem_nil, or_false] at h
    rcases h with rfl | rfl | rfl
    all_goals exact hbyte _ (Nat.mod_lt _ (by decide))

/-- No code point that starts before an ASCII byte reaches it. -/
theorem decode?_of_ascii {x : UInt8} (hx : x.toNat < 0x80) {b₀ : UInt8} {a b : Text} {c : Char} {n : Nat}
    (h : decode? (b₀ :: (a ++ x :: b)) = some (c, n)) :
    ∃ r, b₀ :: a = String.utf8EncodeChar c ++ r ∧ n = (String.utf8EncodeChar c).length := by
  obtain ⟨r, ht, hn⟩ := eq_encode_of_decode? h
  rw [← List.cons_append] at ht
  rcases List.append_eq_append_iff.mp ht with ⟨r', he, hr⟩ | ⟨r', he, -⟩
  · cases r' with
    | nil => exact ⟨[], by simp [he], hn⟩
    | cons y r' =>
      obtain ⟨rfl, -⟩ := List.cons.inj hr
      have hmem : x ∈ (String.utf8EncodeChar c).tail := by simp [he]
      have := encode_tail hmem
      omega
  · exact ⟨r', he, hn⟩

/-- The first piece of a text with an ASCII byte in it ends before that byte. -/
theorem firstPiece_of_ascii {x : UInt8} (hx : x.toNat < 0x80) (b₀ : UInt8) (a b : Text) :
    firstPiece b₀ (a ++ x :: b) = firstPiece b₀ (a ++ [x]) ∧
      (firstPiece b₀ (a ++ [x])).bytes.length - 1 ≤ a.length := by
  have hsame (b b' : Text) {c : Char} {n : Nat} (h : decode? (b₀ :: (a ++ x :: b)) = some (c, n)) :
      decode? (b₀ :: (a ++ x :: b')) = some (c, n) := by
    obtain ⟨r, ha, rfl⟩ := decode?_of_ascii hx h
    rw [← List.cons_append, ha, List.append_assoc]
    exact decode?_encode c _
  cases h : decode? (b₀ :: (a ++ [x])) with
  | none =>
    have h' : decode? (b₀ :: (a ++ x :: b)) = none := by
      rw [Option.eq_none_iff_forall_ne_some]
      rintro ⟨c, n⟩ hb
      rw [hsame b [] hb] at h
      cases h
    simp [firstPiece, h, h']
  | some p =>
    obtain ⟨c, n⟩ := p
    obtain ⟨r, ha, hn⟩ := decode?_of_ascii hx h
    have hlength := congrArg List.length ha
    simp only [List.length_cons, List.length_append, ← hn] at hlength
    have hshort : n - 1 ≤ a.length := by omega
    simp only [firstPiece, h, hsame [] b h, List.take_append_of_le_length hshort]
    simp [Nat.min_le_right]

theorem decode?_ascii {x : UInt8} (hx : x.toNat < 0x80) (r : Text) :
    ∃ c, decode? (x :: r) = some (c, 1) := by
  have hvalid : x.toNat.isValidChar := .inl (by omega)
  simp only [decode?, hx, if_true]
  exact ⟨_, by rw [scalar?, dif_pos hvalid, if_pos (Nat.zero_le _)]⟩

/-- A text that ends with an ASCII byte is closed. -/
theorem Closed.of_ascii {x : UInt8} (hx : x.toNat < 0x80) (a : Text) : Closed (a ++ [x]) := by
  intro b
  -- a piece takes its bytes from `a`, so the rest of `a` is shorter
  induction ha : a.length using Nat.strongRecOn generalizing a with
  | ind k ih =>
    cases a with
    | nil =>
      have hdecode (r : Text) : decode? (x :: r) = decode? [x] := by simp [decode?, hx]
      obtain ⟨c, hc⟩ := decode?_ascii hx []
      simp [pieces_cons, firstPiece, hdecode b, hc]
      rfl
    | cons b₀ a =>
      obtain ⟨hfirst, hshort⟩ := firstPiece_of_ascii hx b₀ a b
      simp only [List.length_cons] at ha
      simp only [List.cons_append, List.append_assoc, List.nil_append, pieces_cons, hfirst]
      generalize (firstPiece b₀ (a ++ [x])).bytes.length - 1 = n at hshort
      have hrest := ih (a.drop n).length (by rw [List.length_drop]; omega) (a.drop n) rfl
      rw [List.drop_append_of_le_length hshort, List.drop_append_of_le_length hshort]
      simpa using hrest

/-- An encoded code point is closed. -/
theorem pieces_encode (c : Char) (b : Text) :
    pieces (String.utf8EncodeChar c ++ b) = ⟨some c, String.utf8EncodeChar c⟩ :: pieces b := by
  obtain ⟨b₀, r, hc⟩ := List.exists_cons_of_ne_nil (String.utf8EncodeChar_ne_nil (c := c))
  have hdecode := decode?_encode c b
  rw [hc] at hdecode ⊢
  rw [List.cons_append] at hdecode ⊢
  rw [pieces_cons, firstPiece, hdecode]
  simp

theorem pieces_ofRunes (cs : List Char) :
    pieces (ofRunes cs) = cs.map fun c => ⟨some c, String.utf8EncodeChar c⟩ := by
  induction cs with
  | nil => rfl
  | cons c cs ih =>
    rw [List.map_cons, ← ih]
    exact pieces_encode c (ofRunes cs)

theorem runes_ofRunes (cs : List Char) : runes (ofRunes cs) = cs := by
  simp [runes, pieces_ofRunes, Piece.rune, Function.comp_def]

theorem isValid_ofRunes (cs : List Char) : isValid (ofRunes cs) = true := by
  simp [isValid, pieces_ofRunes]

theorem Closed.encode (c : Char) : Closed (String.utf8EncodeChar c) := by
  intro b
  have hone := pieces_encode c []
  rw [List.append_nil] at hone
  rw [pieces_encode, hone]
  rfl

/-- Encoded code points with nothing between them. -/
theorem Closed.join {ps : List Piece} (h : ∀ p ∈ ps, ∃ c, p.bytes = String.utf8EncodeChar c) :
    Closed (joinPieces ps) := by
  induction ps with
  | nil => exact .nil
  | cons p ps ih =>
    obtain ⟨c, hc⟩ := h p (.head _)
    have hrest := ih fun q hq => h q (.tail _ hq)
    simpa [joinPieces, hc] using (Closed.encode c).append hrest

theorem Closed.of_all_ascii {t : Text} (h : ∀ x ∈ t, x.toNat < 0x80) : Closed t := by
  rcases List.eq_nil_or_concat t with rfl | ⟨a, x, rfl⟩
  · exact .nil
  · rw [List.concat_eq_append] at h ⊢
    exact .of_ascii (h x (by simp)) a

/-! ## Lines and columns -/

/-- The line of what follows a text: one more than the line breaks in it. -/
def lineAfter (t : Text) : Nat := (runes t).count '\n' + 1

/-- The column of what follows a text: one more than the code points since its last line break. -/
def columnAfter (t : Text) : Nat := ((runes t).reverse.takeWhile (· ≠ '\n')).length + 1

/-- What follows the last line break of a text. -/
def lastLine (t : Text) : Text := (t.reverse.takeWhile (· ≠ 0x0A)).reverse

/-- An ASCII byte of an encoded character is all of it. -/
theorem encode_of_mem_ascii {c : Char} {x : UInt8} (hx : x.toNat < 0x80)
    (h : x ∈ String.utf8EncodeChar c) : c.toNat = x.toNat ∧ String.utf8EncodeChar c = [x] := by
  have hc : c.toNat = x.toNat := by
    cases he : String.utf8EncodeChar c with
    | nil => simp [he] at h
    | cons b r =>
      refine Decidable.byContradiction fun hne => ?_
      have hb := encode_head_ne hx hne he
      have htail : x ∈ (String.utf8EncodeChar c).tail := by simpa [he, hb.symm] using h
      have := encode_tail htail
      omega
  refine ⟨hc, ?_⟩
  rw [encode_one (by omega), hc]
  simp

/-- A piece is read as a line break exactly if it has the byte of one, once. -/
theorem count_bytes {p : Piece} {skip : Nat} {t : Text} (hp : p ∈ piecesFrom skip t) :
    p.bytes.count 0x0A = if p.rune = '\n' then 1 else 0 := by
  obtain ⟨b, r, rfl⟩ := exists_firstPiece hp
  cases hd : decode? (b :: r) with
  | some p =>
    obtain ⟨c, n⟩ := p
    have hp : firstPiece b r = ⟨some c, b :: r.take (n - 1)⟩ := by rw [firstPiece, hd]
    rw [hp, firstPiece_bytes_of_char hp]
    by_cases hc : c = '\n'
    · rw [hc]
      decide
    · rw [if_neg (by simpa [Piece.rune] using hc)]
      refine List.count_eq_zero.mpr fun hmem => hc ?_
      exact Char.toNat_inj.mp (encode_of_mem_ascii (by decide) hmem).1
  | none =>
    have hp : firstPiece b r = ⟨none, [b]⟩ := by rw [firstPiece, hd]
    have hb : b ≠ 0x0A := by
      rintro rfl
      obtain ⟨c, hc⟩ := decode?_ascii (x := 0x0A) (by decide) r
      rw [hd] at hc
      cases hc
    rw [hp]
    simp [Piece.rune, replacement, hb]

theorem lineAfter_eq_count (t : Text) : lineAfter t = t.count 0x0A + 1 := by
  have hall (ps : List Piece) (hps : ∀ p ∈ ps, p.bytes.count 0x0A = if p.rune = '\n' then 1 else 0) :
      (ps.map Piece.rune).count '\n' = (joinPieces ps).count 0x0A := by
    induction ps with
    | nil => rfl
    | cons p ps ih =>
      simp only [joinPieces, List.flatMap_cons, List.map_cons, List.count_append, List.count_cons,
        hps p (.head _), beq_iff_eq]
      rw [ih fun q hq => hps q (.tail _ hq), joinPieces, Nat.add_comm]
  rw [lineAfter, runes, hall (pieces t) fun p hp => count_bytes hp, pieces_bytes]

/-- A text ends with a line that has no line break, which the last line break stands before. -/
theorem lastLine_spec (t : Text) :
    0x0A ∉ lastLine t ∧ (t = lastLine t ∨ ∃ a, t = a ++ [0x0A] ++ lastLine t) := by
  constructor
  · intro hmem
    have hall := List.all_eq_true.mp List.all_takeWhile _ (List.mem_reverse.mp hmem)
    simp at hall
  · have ht := congrArg List.reverse (List.takeWhile_append_dropWhile (p := (· ≠ 0x0A)) (l := t.reverse))
    have hhead := List.head?_dropWhile_not (· ≠ (0x0A : UInt8)) t.reverse
    rw [List.reverse_append, List.reverse_reverse] at ht
    cases hd : t.reverse.dropWhile (· ≠ 0x0A) with
    | nil =>
      left
      rw [hd] at ht
      exact ht.symm
    | cons x d =>
      right
      rw [hd] at ht hhead
      obtain rfl : x = 0x0A := by simpa using hhead
      exact ⟨d.reverse, by rw [lastLine, ← List.reverse_cons]; exact ht.symm⟩

theorem columnAfter_of_not_mem {t : Text} (h : 0x0A ∉ t) (us : List Char)
    (hus : us.takeWhile (· ≠ '\n') = []) :
    ((runes t).reverse ++ us).takeWhile (· ≠ '\n') = (runes t).reverse := by
  have hcount := lineAfter_eq_count t
  rw [lineAfter, List.count_eq_zero.mpr h, Nat.add_right_cancel_iff] at hcount
  rw [List.takeWhile_append_of_pos, hus, List.append_nil]
  intro c hc
  rw [decide_eq_true_iff]
  rintro rfl
  exact List.count_eq_zero.mp hcount (List.mem_reverse.mp hc)

/-- A line break begins a line, so columns are counted in the last line alone. -/
theorem columnAfter_eq_length (t : Text) : columnAfter t = (pieces (lastLine t)).length + 1 := by
  obtain ⟨hfree, ht | ⟨a, ht⟩⟩ := lastLine_spec t
  · have h := columnAfter_of_not_mem hfree [] rfl
    rw [List.append_nil, ← ht] at h
    rw [columnAfter, h, ← ht]
    simp [runes]
  · have hruns : runes t = runes (a ++ [0x0A]) ++ runes (lastLine t) := by
      conv => lhs; rw [ht]
      rw [runes, Closed.of_ascii (by decide), List.map_append]
      rfl
    have hlast : (runes (a ++ [0x0A])).reverse.takeWhile (· ≠ '\n') = [] := by
      rcases List.eq_nil_or_concat (pieces (a ++ [0x0A])) with hnil | ⟨ps, p, hps⟩
      · have := pieces_bytes (a ++ [0x0A])
        simp [hnil, joinPieces] at this
      · have hp : p ∈ pieces (a ++ [0x0A]) := by simp [hps]
        have hbytes := pieces_bytes (a ++ [0x0A])
        rw [hps] at hbytes
        obtain ⟨b, r, hpiece⟩ := exists_firstPiece hp
        have hbreak : 0x0A ∈ p.bytes := by
          obtain ⟨q, x, hq⟩ := (List.eq_nil_or_concat p.bytes).resolve_left
            (hpiece ▸ firstPiece_bytes_ne_nil b r)
          simp only [joinPieces, List.concat_eq_append, List.flatMap_append, List.flatMap_singleton,
            hq, ← List.append_assoc] at hbytes
          simp [hq, List.append_inj_right' hbytes rfl]
        have hrune : p.rune = '\n' := by
          have hcount := count_bytes hp
          have := List.count_pos_iff.mpr hbreak
          split at hcount
          · assumption
          · omega
        simp [runes, hps, hrune]
    rw [columnAfter, hruns, List.reverse_append, columnAfter_of_not_mem hfree _ hlast]
    simp [runes]

end Atmark.Text
