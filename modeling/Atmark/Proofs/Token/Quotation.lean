import Atmark.Proofs.Text.Quoting
import Atmark.Proofs.Token.Balanced

/-! A quoted text is one token. Each piece of a text is written without a quote that no backslash hides
(`quoted_escapePiece`), so a string literal of the grammar ends where the quoting ends it (`leaf_quote`), and a
source that is one leaf of the grammar has that leaf as its only token (`lex_leaf`). -/
namespace Atmark
namespace Shape

theorem Quoted.append {q : UInt8} {escapes : Bool} {t u : Text} (ht : ∀ b ∈ t, b ≠ q ∧ b ≠ 0x5C)
    (hu : Quoted q escapes u) : Quoted q escapes (t ++ u) := by
  induction t with
  | nil => exact hu
  | cons b t ih =>
    obtain ⟨hb, hslash⟩ := ht b (.head _)
    exact .plain hb (fun _ => hslash) (ih fun x hx => ht x (.tail _ hx))

theorem hex_plain (width n : Nat) : ∀ b ∈ Text.hex width n, b ≠ 0x22 ∧ b ≠ 0x5C := by
  induction width generalizing n with
  | zero => simp [Text.hex]
  | succ width ih =>
    intro b hb
    rw [Text.hex, List.mem_append, List.mem_singleton] at hb
    rcases hb with hb | rfl
    · exact ih _ b hb
    · have hall : ∀ d : Fin 16, Text.hexDigit d ≠ 0x22 ∧ Text.hexDigit d ≠ 0x5C := by decide
      exact hall ⟨n % 16, Nat.mod_lt _ (by decide)⟩

/-- An escape by a number. -/
theorem Quoted.escape {u : Text} (e : UInt8) (width n : Nat) (hu : Quoted 0x22 true u) :
    Quoted 0x22 true (0x5C :: e :: Text.hex width n ++ u) :=
  .hidden rfl (hu.append (hex_plain width n))

theorem quoted_escapeChar (c : Char) {u : Text} (hu : Quoted 0x22 true u) :
    Quoted 0x22 true (Text.escapeChar '\x22' c ++ u) := by
  unfold Text.escapeChar
  split
  · rename_i hc
    rcases (by simpa using hc : c = '\x22' ∨ c = '\\') with rfl | rfl
    · exact .hidden rfl hu
    · exact .hidden rfl hu
  rename_i hc
  obtain ⟨hquote, hslash⟩ : c ≠ '\x22' ∧ c ≠ '\\' := by simpa using hc
  split
  · -- an ASCII byte of an encoding is the character itself
    refine hu.append fun b hb => ⟨?_, ?_⟩
    · rintro rfl
      exact hquote (Char.toNat_inj.mp (Text.encode_of_mem_ascii (by decide) hb).1)
    · rintro rfl
      exact hslash (Char.toNat_inj.mp (Text.encode_of_mem_ascii (by decide) hb).1)
  split
  · exact .hidden rfl hu
  split
  · exact .escape 0x78 2 _ hu
  split
  · exact .escape 0x75 4 _ hu
  · exact .escape 0x55 8 _ hu

theorem quoted_escapePiece (p : Text.Piece) {u : Text} (hu : Quoted 0x22 true u) :
    Quoted 0x22 true (Text.escapePiece p ++ u) := by
  unfold Text.escapePiece
  split
  · exact quoted_escapeChar _ hu
  · induction p.bytes with
    | nil => exact hu
    | cons b bs ih =>
      rw [List.flatMap_cons, List.append_assoc]
      exact .escape 0x78 2 _ ih

/-- A quoted text is a string literal, whatever follows it. -/
theorem leaf_quote (t rest : Text) : Leaf (.literal .string) (Text.quote t) rest := by
  have hbody (ps : List Text.Piece) : Quoted 0x22 true (ps.flatMap Text.escapePiece) := by
    induction ps with
    | nil => exact .nil
    | cons p ps ih => exact quoted_escapePiece p ih
  exact .string (hbody (Text.pieces t))

/-- No leaf starts with a byte order mark. -/
theorem Leaf.unmarked_eq {s : Shape} {raw rest : Text} (h : Leaf s raw rest) :
    Lexeme.unmarked (raw ++ rest) = raw ++ rest := by
  cases hs : Text.strip? Lexeme.markBytes (raw ++ rest) with
  | none => rw [Lexeme.unmarked, hs, Option.getD_none]
  | some t =>
    obtain ⟨b, r, ht, hok, -⟩ := ofText_of_leaf h
    obtain ⟨b', r', e, ht', herr, -⟩ := ofText_of_blocked (.mark (t := t))
    rw [← Lexeme.markBytes, ← Text.eq_append_of_strip? hs, ht] at ht'
    obtain ⟨rfl, rfl⟩ := List.cons.inj ht'
    rw [hok] at herr
    cases herr

end Shape

namespace Token

/-- A leaf of the grammar is the only token of its text, and covers it. -/
theorem lex_leaf {s : Shape} {raw : Text} (h : Shape.Leaf s raw []) :
    lex raw = .ok ([s.token ⟨1, 1, 0, raw.length - 1⟩ [] raw], []) := by
  have hunmarked := h.unmarked_eq
  obtain ⟨b, r, ht, hok, hb⟩ := Shape.ofText_of_leaf h
  rw [List.append_nil] at hunmarked ht
  subst ht
  simp only [Shape.isLeafByte, Bool.and_eq_true, Bool.not_eq_true', Option.isSome_eq_false_iff,
    Option.isNone_iff_eq_none] at hb
  obtain ⟨⟨hblank, hopened⟩, hcloser⟩ := hb
  have hempty : Item.Blank [] := by simp [Item.Blank]
  obtain ⟨htake, hdrop⟩ := Lexeme.takeWhile_blank hempty hblank r
  rw [List.nil_append] at htake hdrop
  unfold lex Lexeme.scan
  rw [hunmarked, Lexeme.scanFrom, htake, hdrop]
  simp only [hopened, hcloser, hok, List.take_length, List.drop_length, Lexeme.scanFrom_blank hempty]
  simp [nest, Cursor.position, Cursor.advance, Text.pieces, Text.piecesFrom]

/-! ## Tokens by their reading -/

theorem items_eq_leaf {t : Token} {space raw : Text} {s : Shape} (h : t.items = [.leaf space s raw]) :
    ∃ pos, match s with
      | .ident => t = .ident ⟨pos, space, raw⟩
      | .literal kind => t = .literal ⟨pos, space, kind, raw⟩
      | .punct c => t = .punct ⟨pos, space, c⟩ := by
  cases t with
  | group => cases h
  | ident t | literal t | punct t =>
    obtain ⟨rfl, rfl, rfl⟩ := Item.leaf.inj (List.cons.inj h).1
    exact ⟨t.pos, rfl⟩

theorem flatten_eq_leaf {ts : List Token} {space raw : Text} {s : Shape} {is : List Item}
    (h : flatten ts = .leaf space s raw :: is) :
    ∃ t us, ts = t :: us ∧ t.items = [.leaf space s raw] ∧ flatten us = is := by
  cases ts with
  | nil => cases h
  | cons t us =>
    refine ⟨t, us, rfl, ?_⟩
    cases t with
    | group => cases h
    | ident | literal | punct =>
      obtain ⟨hleaf, hus⟩ := List.cons.inj h
      exact ⟨congrArg (fun i => [i]) hleaf, hus⟩

theorem flatten_eq_opening {ts : List Token} {space : Text} {d : Delimiter} {is : List Item}
    (h : flatten ts = .opening space d :: is) : ∃ f cs us, ts = .group f cs :: us ∧ f.delim = d ∧
      flatten cs ++ .closing f.closeSpace f.delim :: flatten us = is := by
  cases ts with
  | nil => cases h
  | cons t us =>
    cases t with
    | group f cs =>
      simp only [flatten, items, List.cons_append, List.append_assoc, List.nil_append,
        List.cons.injEq, Item.opening.injEq] at h
      exact ⟨f, cs, us, rfl, h.1.2, h.2⟩
    | _ => cases h

/-- A group with one leaf in it is found between its delimiters. -/
theorem flatten_eq_group {ts : List Token} {space inner raw closeSpace : Text} {d : Delimiter} {s : Shape}
    {is : List Item} (h : flatten ts =
      .opening space d :: .leaf inner s raw :: .closing closeSpace d :: is) :
    ∃ f t us, ts = .group f [t] :: us ∧ f.delim = d ∧ t.items = [.leaf inner s raw] ∧
      flatten us = is := by
  obtain ⟨f, cs, us, rfl, hd, h⟩ := flatten_eq_opening h
  cases cs with
  | nil => cases h
  | cons t cs =>
    obtain ⟨t', cs', hcs, ht, hrest⟩ : ∃ t' cs', t :: cs = t' :: cs' ∧ t'.items = [.leaf inner s raw] ∧
        flatten cs' ++ .closing f.closeSpace f.delim :: flatten us = .closing closeSpace d :: is := by
      cases t with
      | group => cases h
      | ident | literal | punct =>
        obtain ⟨hleaf, hus⟩ := List.cons.inj h
        exact ⟨_, cs, rfl, congrArg (fun i => [i]) hleaf, hus⟩
    obtain ⟨rfl, rfl⟩ := List.cons.inj hcs
    cases cs with
    | nil => exact ⟨f, t, us, rfl, hd, ht, (List.cons.inj hrest).2⟩
    | cons u cs => cases u <;> cases hrest

end Token
end Atmark
