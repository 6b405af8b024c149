import Atmark.Proofs.Token.Joining

/-! Text without quotes and delimiters. It is read as words, numbers and single characters, so it always has tokens
(`Token.lex_plain`), and none of them is a group or holds a character that the text does not have. -/
namespace Atmark

namespace Text

/-- A byte that stands for itself alone is a character of the text. -/
theorem mem_of_mem_ofRunes {cs : List Char} {b : UInt8} (hb : b.toNat < 0x80) (h : b ∈ ofRunes cs) :
    Char.ofNat b.toNat ∈ cs := by
  obtain ⟨c, hc, hmem⟩ := List.mem_flatMap.mp h
  obtain ⟨hcode, -⟩ := encode_of_mem_ascii hb hmem
  rwa [← hcode, Char.ofNat_toNat]

theorem exists_ofRunes_of_ascii {t : Text} (h : ∀ b ∈ t, b.toNat < 0x80) : ∃ cs, t = ofRunes cs := by
  induction t with
  | nil => exact ⟨[], rfl⟩
  | cons b t ih =>
    obtain ⟨cs, rfl⟩ := ih fun c hc => h c (.tail _ hc)
    have hvalid : b.toNat.isValidChar := by
      have hb := h b (.head _)
      exact .inl (by omega)
    obtain ⟨c, hc⟩ : ∃ c : Char, c.toNat = b.toNat := ⟨Char.ofNatAux b.toNat hvalid, rfl⟩
    refine ⟨c :: cs, ?_⟩
    simp [ofRunes, encode_one (hc ▸ h b (.head _)), hc]

theorem ofRunes_append (cs ds : List Char) : ofRunes (cs ++ ds) = ofRunes cs ++ ofRunes ds := List.flatMap_append

/-- What follows characters at the beginning of a text of characters is one again. -/
theorem ofRunes_eq_append {as cs : List Char} {t : Text} (h : ofRunes cs = ofRunes as ++ t) :
    ∃ ds, cs = as ++ ds ∧ t = ofRunes ds := by
  induction as generalizing cs with
  | nil => exact ⟨cs, rfl, by simpa [ofRunes] using h.symm⟩
  | cons a as ih =>
    cases cs with
    | nil =>
      have hlength := congrArg List.length h
      have hpos := List.length_pos_iff.mpr (String.utf8EncodeChar_ne_nil (c := a))
      simp only [ofRunes, List.flatMap_nil, List.length_nil, List.flatMap_cons, List.length_append] at hlength
      omega
    | cons c cs =>
      simp only [ofRunes, List.flatMap_cons, List.append_assoc] at h
      obtain ⟨rfl, hrest⟩ := encode_append_inj h
      obtain ⟨ds, rfl, rfl⟩ := ih hrest
      exact ⟨ds, rfl, rfl⟩

/-- The characters that open or close a literal or a group, and the mark that may open a source. -/
def brackets : List Char := "\"'`()[]{}".toList ++ [Shape.byteOrderMark]

/-- The characters that are not always text in markup. -/
def marks : List Char := '@' :: '<' :: brackets

end Text

namespace Shape

/-- A leaf of plain text: a word, a number or a character that is none of the brackets. -/
def isPlain : Shape → Bool
  | .ident => true
  | .literal k => k = .int || k = .float
  | .punct c => c ∉ Text.brackets

theorem Run.ascii {hex : Bool} {raw rest : Text} (h : Run hex raw rest) : ∀ b ∈ raw, b.toNat < 0x80 := by
  intro b hb
  obtain ⟨before, after, hraw⟩ := List.append_of_mem hb
  rcases h.continues before b after hraw with hnumber | ⟨hsign, -⟩
  · exact ascii_of_isNumberByte hnumber
  · simp only [isSign, Bool.or_eq_true, decide_eq_true_eq] at hsign
    rcases hsign with rfl | rfl <;> decide

theorem Number.ascii {kind : LiteralKind} {raw rest : Text} (h : Number kind raw rest) :
    ∀ b ∈ raw, b.toNat < 0x80 := by
  cases h with
  | whole _ hrun _ => exact hrun.ascii
  | point _ _ hrun hrun' =>
    intro b hb
    rcases List.mem_append.mp hb with hb | hb
    · exact hrun.ascii b hb
    · rcases List.mem_cons.mp hb with rfl | hb
      · decide
      · exact hrun'.ascii b hb

/-- A leaf at the beginning of plain text is plain, and the text behind it is one again. -/
theorem Leaf.plain {s : Shape} {raw rest : Text} {cs : List Char} (hcs : ∀ c ∈ cs, c ∉ Text.brackets)
    (h : Leaf s raw rest) (htext : Text.ofRunes cs = raw ++ rest) :
    s.isPlain = true ∧ (∀ c, s = .punct c → c ∈ cs) ∧ ∃ ds es, cs = ds ++ es ∧ rest = Text.ofRunes es := by
  have hopen {b : UInt8} {r : Text} (hb : b.toNat < 0x80) (hbracket : Char.ofNat b.toNat ∈ Text.brackets)
      (hr : raw = b :: r) : False :=
    hcs _ (Text.mem_of_mem_ofRunes hb (by rw [htext, hr]; exact .head _)) hbracket
  have hrest {ds : List Char} (hraw : raw = Text.ofRunes ds) : ∃ ds es, cs = ds ++ es ∧ rest = Text.ofRunes es := by
    obtain ⟨es, hes⟩ := Text.ofRunes_eq_append (htext.trans (by rw [hraw]))
    exact ⟨_, es, hes⟩
  cases h with
  | string => exact (hopen (b := 0x22) (by decide) (by decide) rfl).elim
  | rawString => exact (hopen (b := 0x60) (by decide) (by decide) rfl).elim
  | rune => exact (hopen (b := 0x27) (by decide) (by decide) rfl).elim
  | number hnumber =>
    obtain ⟨ds, hraw⟩ := Text.exists_ofRunes_of_ascii hnumber.ascii
    refine ⟨?_, by simp, hrest hraw⟩
    cases hnumber with
    | whole => rw [isPlain]; split <;> rfl
    | point => rfl
  | ident => exact ⟨rfl, by simp, hrest rfl⟩
  | @punct c =>
    have hraw : String.utf8EncodeChar c = Text.ofRunes [c] := by simp [Text.ofRunes]
    obtain ⟨es, rfl, -⟩ := Text.ofRunes_eq_append (htext.trans (by rw [hraw]))
    refine ⟨by simpa [isPlain] using hcs c (by simp), ?_, hrest hraw⟩
    intro d hd
    obtain rfl := Shape.punct.inj hd
    simp

end Shape

/-! ## Readings -/

/-- The item is a plain leaf, whose character is one of the text. -/
def Item.IsPlain (cs : List Char) (i : Item) : Prop :=
  ∃ space s raw rest, i = .leaf space s raw ∧ Blank space ∧ Shape.Leaf s raw rest ∧ s.isPlain = true ∧
    ∀ c, s = .punct c → c ∈ cs

theorem Item.IsPlain.mono {cs ds : List Char} {i : Item} (h : IsPlain ds i) (hmem : ∀ c ∈ ds, c ∈ cs) : IsPlain cs i := by
  obtain ⟨space, s, raw, rest, hi, hspace, hleaf, hplain, hchar⟩ := h
  exact ⟨space, s, raw, rest, hi, hspace, hleaf, hplain, fun c hc => hmem c (hchar c hc)⟩

theorem Item.Blank.exists_ofRunes {space : Text} (h : Blank space) : ∃ cs, space = Text.ofRunes cs :=
  Text.exists_ofRunes_of_ascii fun b hb => Lexeme.isSpace_ascii (h b hb)

/-- Plain text is read as plain leaves, and what is left of it is plain text. -/
theorem Item.Reads.plain {cs : List Char} (hcs : ∀ c ∈ cs, c ∉ Text.brackets) {t left : Text} {is : List Item}
    (h : Reads t is left) (ht : t = Text.ofRunes cs) :
    (∀ i ∈ is, i.IsPlain cs) ∧ ∃ ds es, cs = ds ++ es ∧ left = Text.ofRunes es := by
  induction h generalizing cs with
  | nil => exact ⟨by simp, [], cs, rfl, ht⟩
  | @opening space t left d is _ hd =>
    obtain ⟨b, hb, hascii, hbracket⟩ : ∃ b, b ∈ d.opening ∧ b.toNat < 0x80 ∧ Char.ofNat b.toNat ∈ Text.brackets := by
      cases d with
      | none => exact (hd rfl).elim
      | parenthesis | brace | bracket => exact ⟨_, .head _, by decide, by decide⟩
    exact (hcs _ (Text.mem_of_mem_ofRunes hascii (by rw [← ht]; simp [hb])) hbracket).elim
  | @closing space t left d is _ hd =>
    obtain ⟨b, hb, hascii, hbracket⟩ : ∃ b, b ∈ d.closing ∧ b.toNat < 0x80 ∧ Char.ofNat b.toNat ∈ Text.brackets := by
      cases d with
      | none => exact (hd rfl).elim
      | parenthesis | brace | bracket => exact ⟨_, .head _, by decide, by decide⟩
    exact (hcs _ (Text.mem_of_mem_ofRunes hascii (by rw [← ht]; simp [hb])) hbracket).elim
  | @leaf space raw t left s is hspace hleaf _ ih =>
    obtain ⟨blanks, hblanks⟩ := hspace.exists_ofRunes
    rw [hblanks, List.append_assoc] at ht
    obtain ⟨ds, rfl, htext⟩ := Text.ofRunes_eq_append ht.symm
    have hds : ∀ c ∈ ds, c ∉ Text.brackets := fun c hc => hcs c (List.mem_append_right _ hc)
    obtain ⟨hplain, hchar, es, fs, rfl, hrest⟩ := hleaf.plain hds htext.symm
    obtain ⟨hitems, gs, hs, rfl, hleft⟩ := ih (fun c hc => hds c (List.mem_append_right _ hc)) hrest
    refine ⟨fun i hi => ?_, blanks ++ es ++ gs, hs, by simp, hleft⟩
    rcases List.mem_cons.mp hi with rfl | hi
    · exact ⟨_, s, raw, t, rfl, hspace, hleaf, hplain, fun c hc => List.mem_append_right _ (hchar c hc)⟩
    · exact (hitems i hi).mono fun c hc => by
        rw [← List.append_assoc]
        exact List.mem_append_right _ hc

/-- Nothing keeps plain text from being read. -/
theorem Item.not_stuck_plain {cs : List Char} (hcs : ∀ c ∈ cs, c ∉ Text.brackets) : ¬Stuck (Text.ofRunes cs) := by
  rintro ⟨space, r, ht, hspace, hblocked⟩
  obtain ⟨blanks, rfl⟩ := hspace.exists_ofRunes
  obtain ⟨ds, rfl, rfl⟩ := Text.ofRunes_eq_append ht
  have hopen {b : UInt8} {u : Text} (hb : b.toNat < 0x80) (hbracket : Char.ofNat b.toNat ∈ Text.brackets)
      (hu : Text.ofRunes ds = b :: u) : False :=
    hcs _ (List.mem_append_right _ (Text.mem_of_mem_ofRunes hb (by rw [hu]; exact .head _))) hbracket
  generalize hu : Text.ofRunes ds = u at hblocked
  cases hblocked with
  | encoding hne hnone =>
    cases ds with
    | nil => exact hne hu.symm
    | cons d ds => exact hnone d (Text.ofRunes ds) (by rw [← hu]; rfl)
  | mark =>
    have hmark : String.utf8EncodeChar Shape.byteOrderMark = Text.ofRunes [Shape.byteOrderMark] := by simp [Text.ofRunes]
    obtain ⟨es, rfl, -⟩ := Text.ofRunes_eq_append (hu.trans (by rw [hmark]))
    exact hcs Shape.byteOrderMark (by simp) (by decide)
  | string => exact hopen (b := 0x22) (by decide) (by decide) hu
  | rawString => exact hopen (b := 0x60) (by decide) (by decide) hu

namespace Token

/-- The token is a plain leaf, whose character is one of the text. -/
def IsPlain (cs : List Char) (t : Token) : Prop :=
  ∃ s rest, t.items = [.leaf t.space s t.source] ∧ Item.Blank t.space ∧ Shape.Leaf s t.source rest ∧
    s.isPlain = true ∧ ∀ c, s = .punct c → c ∈ cs

theorem unmarked_plain {cs : List Char} (hcs : ∀ c ∈ cs, c ∉ Text.brackets) :
    Lexeme.unmarked (Text.ofRunes cs) = Text.ofRunes cs := by
  unfold Lexeme.unmarked
  cases h : Text.strip? Lexeme.markBytes (Text.ofRunes cs) with
  | none => rfl
  | some r =>
    have hmark : Lexeme.markBytes = Text.ofRunes [Shape.byteOrderMark] := by simp [Text.ofRunes, Lexeme.markBytes]
    obtain ⟨es, rfl, -⟩ := Text.ofRunes_eq_append ((Text.eq_append_of_strip? h).trans (by rw [hmark]))
    exact (hcs Shape.byteOrderMark (by simp) (by decide)).elim

theorem flatten_plain {cs : List Char} {ts : List Token} (h : ∀ i ∈ flatten ts, i.IsPlain cs) :
    ∀ t ∈ ts, t.IsPlain cs := by
  intro t ht
  obtain ⟨as, bs, rfl⟩ := List.append_of_mem ht
  have hitems : ∀ i ∈ t.items, i.IsPlain cs := fun i hi => h i (by simp [flatten_append, flatten, hi])
  cases t with
  | group f ts =>
    obtain ⟨_, _, _, _, hi, -⟩ := hitems (.opening f.space f.delim) (by simp [items])
    cases hi
  | ident | literal | punct =>
    obtain ⟨space, s, raw, rest, hi, hspace, hleaf, hplain, hchar⟩ := hitems _ (.head _)
    cases hi
    exact ⟨_, rest, rfl, hspace, hleaf, hplain, hchar⟩

/-- Plain text has tokens, all of them plain. -/
theorem lex_plain {cs : List Char} (hcs : ∀ c ∈ cs, c ∉ Text.brackets) :
    ∃ ts left, lex (Text.ofRunes cs) = .ok (ts, left) ∧ ∀ t ∈ ts, t.IsPlain cs := by
  obtain ⟨is, left, hread, hls, hend⟩ := Lexeme.scan_readsTo (Text.ofRunes cs)
  rw [unmarked_plain hcs] at hread
  obtain ⟨hitems, ds, es, rfl, rfl⟩ := hread.plain hcs rfl
  have hes : ∀ c ∈ es, c ∉ Text.brackets := fun c hc => hcs c (List.mem_append_right _ hc)
  have hblank : Item.Blank (Text.ofRunes es) := by
    split at hend
    · exact hend.2
    · exact (Item.not_stuck_plain hes hend).elim
  have hbalanced : Item.Balanced is := by
    clear hread hls
    induction is with
    | nil => exact .nil
    | cons i is ih =>
      obtain ⟨_, _, _, _, rfl, -⟩ := hitems i (.head _)
      exact .leaf (ih fun i hi => hitems i (.tail _ hi))
  rw [← unmarked_plain hcs] at hread
  obtain ⟨ts, hlex, rfl⟩ := exists_lex hread hblank hbalanced
  exact ⟨ts, _, hlex, flatten_plain hitems⟩

namespace IsPlain
variable {cs : List Char} {t : Token}

/-- A token does not begin with white space. -/
theorem exists_source (h : t.IsPlain cs) : ∃ b r, t.source = b :: r ∧ Shape.isSpace b = false := by
  obtain ⟨s, rest, -, -, hleaf, -⟩ := h
  obtain ⟨b, r, hsource, hs, hb⟩ := Shape.ofText_of_leaf hleaf
  have hpos := (Shape.ofText_spells hs).1
  simp only [Shape.isLeafByte, Bool.and_eq_true, Bool.not_eq_true'] at hb
  cases hraw : t.source with
  | nil => simp [hraw] at hpos
  | cons c raw =>
    rw [hraw] at hsource
    obtain ⟨rfl, -⟩ := List.cons.inj hsource
    exact ⟨c, raw, rfl, hb.1.1⟩

/-- Only the marker is spelled with the byte of the marker. -/
theorem isPunct_of_mem (h : t.IsPlain cs) (hmem : 0x40 ∈ t.source) : t.isPunct '@' = true := by
  obtain ⟨s, rest, hitems, -, hleaf, hplain, -⟩ := h
  have hrun {hex : Bool} {raw after : Text} (hrun : Shape.Run hex raw after) : (0x40 : UInt8) ∉ raw := by
    intro hmem
    obtain ⟨before, after, hraw⟩ := List.append_of_mem hmem
    have hcontinues := hrun.continues before 0x40 after hraw
    simp [Shape.Continues, Shape.isNumberByte, Shape.isSign] at hcontinues
  generalize t.source = raw at hitems hleaf hmem
  cases hleaf with
  | string | rawString | rune => cases hplain
  | number hnumber =>
    cases hnumber with
    | whole _ hwhole _ => exact (hrun hwhole hmem).elim
    | point _ _ hwhole hpart =>
      rcases List.mem_append.mp hmem with hmem | hmem
      · exact (hrun hwhole hmem).elim
      · rcases List.mem_cons.mp hmem with hmem | hmem
        · cases hmem
        · exact (hrun hpart hmem).elim
  | ident hc hcs =>
    rcases List.mem_cons.mp (Text.mem_of_mem_ofRunes (by decide) hmem) with hat | hat
    · exact absurd (hat ▸ hc) (by decide +kernel)
    · exact absurd (hcs _ hat) (by decide +kernel)
  | @punct c =>
    obtain ⟨hc, -⟩ := Text.encode_of_mem_ascii (by decide) hmem
    obtain rfl : c = '@' := Char.toNat_inj.mp hc
    cases t with
    | punct p =>
      obtain ⟨-, hs, -⟩ := Item.leaf.inj (List.singleton_inj.mp hitems)
      simpa [isPunct] using Shape.punct.inj hs
    | ident | literal | group => simp [items] at hitems

end IsPlain

end Token
end Atmark
