import Atmark.Proofs.Token.Plain
import Atmark.Proofs.Token.Spelling

/-! Values between quotes. Between double quotes a value is one token. An apostrophe opens a character literal if
there is one, and else it stands for itself; so a value between apostrophes is a literal if it is one character, and
the tokens between two apostrophes if nothing behind the second one makes a literal of that one
(`Shape.not_runeBody`, `Token.exists_apostrophes`). An element then has the same tokens whichever quotes its
attribute is written with, but for those of the value (`Token.lex_requoted`). Else the `>` of the tag may be such a
literal, and the value is without its second apostrophe (`Token.lex_unclosed`). -/
namespace Atmark

namespace Shape

/-- A character literal that begins with a byte of its own has no other. -/
theorem RuneBody.of_ascii {body t after : Text} {b : UInt8} (h : RuneBody body) (hb : b.toNat < 0x80)
    (hslash : b ≠ 0x5C) (htext : b :: t = body ++ 0x27 :: after) : b ≠ 0x27 ∧ t = 0x27 :: after := by
  cases h with
  | @char c hquote =>
    have hmem : b ∈ String.utf8EncodeChar c := by
      cases hc : String.utf8EncodeChar c with
      | nil => exact (String.utf8EncodeChar_ne_nil hc).elim
      | cons x bs =>
        rw [hc] at htext
        rw [(List.cons.inj htext).1]
        exact .head _
    obtain ⟨hcode, hone⟩ := Text.encode_of_mem_ascii hb hmem
    rw [hone] at htext
    refine ⟨?_, (List.cons.inj htext).2⟩
    rintro rfl
    exact hquote (Char.toNat_inj.mp hcode)
  | stray hstray =>
    obtain ⟨rfl, -⟩ := List.cons.inj htext
    omega
  | escape => exact (hslash (List.cons.inj htext).1).elim

/-- Text without quotes and backslashes is no character literal before a quote, unless it is one character. -/
theorem not_runeBody {cs : List Char} (hcs : ∀ c ∈ cs, c ≠ '\'' ∧ c ≠ '\\') (hone : ∀ c, cs = [c] → c = '\n')
    {t body after : Text} (h : RuneBody body) : Text.ofRunes cs ++ 0x27 :: t ≠ body ++ 0x27 :: after := by
  intro htext
  cases cs with
  | nil => exact (h.of_ascii (by decide) (by decide) htext).1 rfl
  | cons c cs =>
    obtain ⟨hquote, hslash⟩ := hcs c (.head _)
    have hcons : Text.ofRunes (c :: cs) = String.utf8EncodeChar c ++ Text.ofRunes cs := rfl
    rw [hcons, List.append_assoc] at htext
    cases he : String.utf8EncodeChar c with
    | nil => exact (String.utf8EncodeChar_ne_nil he).elim
    | cons b bs =>
      cases h with
      | char _ hbreak =>
        obtain ⟨rfl, hrest⟩ := Text.encode_append_inj htext
        -- The quote behind the first character is one of the text if that goes on.
        cases cs with
        | nil => exact hbreak (hone c rfl)
        | cons d cs =>
          cases hd : Text.ofRunes (d :: cs) with
          | nil => simp [Text.ofRunes] at hd
          | cons x t =>
            rw [hd] at hrest
            obtain ⟨rfl, -⟩ := List.cons.inj hrest
            have hbyte : 0x27 ∈ Text.ofRunes (d :: cs) := by
              rw [hd]
              exact .head _
            have hmem := Text.mem_of_mem_ofRunes (by decide) hbyte
            exact (hcs '\'' (.tail _ hmem)).1 rfl
      | stray hb =>
        rw [he] at htext
        obtain ⟨rfl, hrest⟩ := List.cons.inj htext
        have hpiece := Text.firstPiece_encode he (Text.ofRunes cs ++ 0x27 :: t)
        rw [show bs ++ (Text.ofRunes cs ++ 0x27 :: t) = 0x27 :: after from hrest,
          firstPiece_of_stray hb (by decide)] at hpiece
        cases hpiece
      | escape =>
        rw [he] at htext
        obtain ⟨rfl, -⟩ := List.cons.inj htext
        exact Text.encode_head_ne (by decide) (fun hc => hslash (Char.toNat_inj.mp hc)) he rfl

/-- An apostrophe that opens no character literal stands for itself. -/
theorem apostrophe_isLeaf {rest : Text} (h : ∀ body after, RuneBody body → rest ≠ body ++ 0x27 :: after) :
    Leaf (.punct '\'') [0x27] rest :=
  .punct (by decide) (by decide) (by decide +kernel) (by decide) fun _ => h

end Shape

namespace Token

/-- The tokens of a value between quotes: a string, a character literal, or the tokens of the value between two
apostrophes. -/
inductive Value (v : Text) : UInt8 → List Token → Prop
  | string (pos : Option Position) : Value v 0x22 [.literal ⟨pos, [], .string, 0x22 :: (v ++ [0x22])⟩]
  | rune (pos : Option Position) : Value v 0x27 [.literal ⟨pos, [], .rune, 0x27 :: (v ++ [0x27])⟩]
  | marks (pos pos' : Option Position) {space : Text} {ts : List Token} : (∀ t ∈ ts, t.isPunct '\'' = false) →
      sourceWithSpace ts ++ space = v → Value v 0x27 (.mark pos '\'' :: (ts ++ [.punct ⟨pos', space, '\''⟩]))

/-- A value that is not one character is read behind its first apostrophe as by itself, up to another one. -/
theorem exists_plainValue {cs : List Char} (hcs : ∀ c ∈ cs, c ∉ '\\' :: Text.brackets) (hmore : ∀ c, cs = [c] → c = '\n') :
    ∃ ts space, (∀ t ∈ ts, t.isPunct '\'' = false) ∧ sourceWithSpace ts ++ space = Text.ofRunes cs ∧ Item.Blank space ∧
      ∀ {rest after : Text} {is : List Item}, Item.Reads (space ++ 0x27 :: rest) is after →
        Item.Reads (0x27 :: (Text.ofRunes cs ++ 0x27 :: rest)) (flatten (.mark none '\'' :: ts) ++ is) after := by
  have hblank : Item.Blank [] := by simp [Item.Blank]
  have hquote : '\'' ∈ Text.brackets := by decide
  have hplain : ∀ c ∈ cs, c ∉ Text.brackets := fun c hc hmem => hcs c hc (.tail _ hmem)
  have hneither : ∀ c ∈ cs, c ≠ '\'' ∧ c ≠ '\\' := by
    intro c hc
    constructor
    · rintro rfl
      exact hplain _ hc hquote
    · rintro rfl
      exact hcs _ hc (.head _)
  obtain ⟨ts, left, hlex, hts⟩ := lex_plain hplain
  obtain ⟨hread, hleft⟩ := reads_of_lex hlex
  have hsource := lex_unmarked hlex
  rw [unmarked_plain hplain] at hread hsource
  have hmark : ∀ t ∈ ts, t.isPunct '\'' = false := by
    intro t ht
    obtain ⟨s, rest, hitems, -, -, -, hchar⟩ := hts t ht
    cases t with
    | punct p =>
      obtain ⟨-, rfl, -⟩ := Item.leaf.inj (List.singleton_inj.mp hitems)
      refine decide_eq_false fun hp => hplain _ (hchar _ rfl) ?_
      rw [hp]
      exact hquote
    | _ => rfl
  have hitems : ∀ space raw, .leaf space (.punct '\'') raw ∉ flatten ts := by
    intro space raw hmem
    obtain ⟨_, s, _, _, hi, -, -, -, hchar⟩ := (hread.plain hplain rfl).1 _ hmem
    obtain ⟨-, rfl, -⟩ := Item.leaf.inj hi
    exact hplain _ (hchar _ rfl) hquote
  obtain ⟨read, hsplit, hresume⟩ := hread.resume_unquoted hitems
  refine ⟨ts, left, hmark, hsource, hleft, fun {rest after is} hend => ?_⟩
  have hhalts : ∀ b t, left ++ 0x27 :: rest = b :: t → Shape.Halts b := by
    intro b t hb
    cases left with
    | nil =>
      obtain ⟨rfl, -⟩ := List.cons.inj hb
      decide
    | cons x left =>
      obtain ⟨rfl, -⟩ := List.cons.inj hb
      exact Shape.halts_of_boundary (by simp [Shape.isLeafByte, hleft x (.head _)])
  have hinner := (hresume _ hhalts).append hend
  have hall : read ++ (left ++ 0x27 :: rest) = Text.ofRunes cs ++ 0x27 :: rest := by
    rw [hsplit]
    simp
  have hopen := Item.Reads.leaf hblank (Shape.apostrophe_isLeaf fun body after hbody => ?_) hinner
  · have hencode : String.utf8EncodeChar '\'' = [0x27] := rfl
    rw [hall] at hopen
    simpa [flatten, items, mark, hencode] using hopen
  · rw [hall]
    exact Shape.not_runeBody hneither hmore hbody

/-- A value between apostrophes is read up to the second one. -/
theorem exists_apostrophes {cs : List Char} (hcs : ∀ c ∈ cs, c ∉ '\\' :: Text.brackets) {r : Text}
    (hr : (∃ c, cs = [c] ∧ c ≠ '\n') ∨ r.head? ≠ some 0x27) : ∃ ts, Value (Text.ofRunes cs) 0x27 ts ∧
      Item.Reads (0x27 :: (Text.ofRunes cs ++ 0x27 :: 0x3E :: r)) (flatten ts) (0x3E :: r) := by
  by_cases hone : ∃ c, cs = [c] ∧ c ≠ '\n'
  · obtain ⟨c, rfl, hbreak⟩ := hone
    have hc : c ≠ '\'' ∧ c ≠ '\\' := by
      constructor
      · rintro rfl
        exact hcs _ (.head _) (by decide)
      · rintro rfl
        exact hcs _ (.head _) (by decide)
    have hread : Item.Reads ([] ++ 0x27 :: (Text.ofRunes [c] ++ [0x27]) ++ 0x3E :: r) _ (0x3E :: r) :=
      .leaf (by simp [Item.Blank]) (.rune (by simpa [Text.ofRunes] using Shape.RuneBody.char hc.1 hbreak hc.2)) .nil
    refine ⟨_, .rune none, ?_⟩
    simpa [flatten, items] using hread
  · have hmore : ∀ c, cs = [c] → c = '\n' := fun c hc => Decidable.byContradiction fun hne => hone ⟨c, hc, hne⟩
    obtain ⟨ts, space, hmark, hsource, hspace, hread⟩ := exists_plainValue hcs hmore
    have hend : Item.Reads (space ++ [0x27] ++ 0x3E :: r) [.leaf space (.punct '\'') [0x27]] (0x3E :: r) := by
      refine .leaf hspace (Shape.apostrophe_isLeaf fun body after hbody hrune => ?_) .nil
      obtain ⟨-, rfl⟩ := hbody.of_ascii (by decide) (by decide) hrune
      exact hr.resolve_left hone rfl
    rw [List.append_assoc] at hend
    have hencode : String.utf8EncodeChar '\'' = [0x27] := rfl
    refine ⟨_, .marks none none hmark hsource, ?_⟩
    simpa [flatten, items, flatten_append, hencode] using hread hend

/-- A value between double quotes is one token. -/
theorem reads_string {v : Text} (hv : ∀ b ∈ v, b ≠ 0x22 ∧ b ≠ 0x5C) (r : Text) :
    Item.Reads (0x22 :: (v ++ 0x22 :: 0x3E :: r)) (flatten [.literal ⟨none, [], .string, 0x22 :: (v ++ [0x22])⟩])
      (0x3E :: r) := by
  have hblank : Item.Blank [] := by simp [Item.Blank]
  have hquoted : Shape.Quoted 0x22 true (v ++ []) := Shape.Quoted.append hv .nil
  rw [List.append_nil] at hquoted
  have hread : Item.Reads ([] ++ 0x22 :: (v ++ [0x22]) ++ 0x3E :: r) _ (0x3E :: r) :=
    .leaf hblank (.string hquoted) .nil
  simpa [flatten, items] using hread

theorem not_isPunct_of_unplaced {c : Char} {ts us : List Token} (hus : unplacedAll us = unplacedAll ts)
    (hts : ∀ t ∈ ts, t.isPunct c = false) : ∀ u ∈ us, u.isPunct c = false := by
  intro u hu
  have hmem : u.unplaced ∈ unplacedAll ts := by
    rw [← hus, unplacedAll_eq_map]
    exact List.mem_map_of_mem hu
  rw [unplacedAll_eq_map] at hmem
  obtain ⟨t, ht, hsame⟩ := List.mem_map.mp hmem
  rw [← isPunct_unplaced, ← hsame, isPunct_unplaced, hts t ht]

/-- The tokens of a value are those of the value wherever they stand. -/
theorem Value.of_unplaced {v : Text} {q : UInt8} {ts us : List Token} (h : Value v q ts)
    (hus : unplacedAll us = unplacedAll ts) : Value v q us := by
  cases h with
  | string =>
    obtain ⟨t, us, rfl, ht, hnil⟩ := exists_same hus
    obtain rfl := unplacedAll_eq_nil hnil
    obtain ⟨pos, rfl⟩ := ht.literal
    exact .string pos
  | rune =>
    obtain ⟨t, us, rfl, ht, hnil⟩ := exists_same hus
    obtain rfl := unplacedAll_eq_nil hnil
    obtain ⟨pos, rfl⟩ := ht.literal
    exact .rune pos
  | @marks _ _ space ts hmark hsource =>
    obtain ⟨t, us, rfl, ht, hmore⟩ := exists_same hus
    obtain ⟨pos, rfl⟩ := ht.punct
    rw [unplacedAll_append] at hmore
    obtain ⟨inner, us, rfl, hinner, hend⟩ := unplacedAll_eq_append hmore
    obtain ⟨t', us, rfl, ht', hnil⟩ := exists_same hend
    obtain rfl := unplacedAll_eq_nil hnil
    obtain ⟨pos', rfl⟩ := ht'.punct
    refine .marks pos pos' (not_isPunct_of_unplaced hinner hmark) ?_
    rw [← sourceWithSpace_unplacedAll inner, hinner, sourceWithSpace_unplacedAll, hsource]

/-! ## Opening tags -/

/-- The tokens begin with those of an opening tag with one attribute, and the others come behind it. -/
inductive Opens (name attr v : Text) (q : UInt8) : List Token → List Token → Prop
  | tag (lt pos pos' equals gt : Option Position) {vs xs : List Token} : Value v q vs → Opens name attr v q
      (.mark lt '<' :: .ident ⟨pos, [], name⟩ :: .ident ⟨pos', utf8 " ", attr⟩ :: .mark equals '=' ::
        (vs ++ .mark gt '>' :: xs)) xs

/-- The source of an opening tag with one attribute. -/
def openingSource (name attr v : Text) (q : UInt8) : Text :=
  utf8 "<" ++ name ++ utf8 " " ++ attr ++ utf8 "=" ++ q :: v ++ [q] ++ utf8 ">"

section
variable {name attr : Word} {v : Text} {q : UInt8} {ts vs : List Token} {r left : Text}

/-- What comes before the value is read. -/
theorem reads_attribute (name attr : Word) {rest after : Text} {is : List Item} (h : Item.Reads (q :: rest) is after) :
    Item.Reads (utf8 "<" ++ name.text ++ utf8 " " ++ attr.text ++ utf8 "=" ++ q :: rest) (flatten [.mark none '<',
      .ident ⟨none, [], name.text⟩, .ident ⟨none, utf8 " ", attr.text⟩, .mark none '='] ++ is) after := by
  have hblank : Item.Blank [] := by simp [Item.Blank]
  have hspace : Item.Blank (utf8 " ") := by
    intro b hb
    obtain rfl : b = 0x20 := List.mem_singleton.mp hb
    decide
  have hless (rest : Text) : Shape.Leaf (.punct '<') (utf8 "<") rest := Shape.mark_isLeaf (c := '<') (by decide) rest
  have hequals (rest : Text) : Shape.Leaf (.punct '=') (utf8 "=") rest := Shape.mark_isLeaf (c := '=') (by decide) rest
  have hvalue : Item.Reads (utf8 "=" ++ q :: rest) (.leaf [] (.punct '=') (utf8 "=") :: is) after :=
    .leaf hblank (hequals _) h
  have hattr : Item.Reads (utf8 " " ++ attr.text ++ (utf8 "=" ++ q :: rest)) (.leaf (utf8 " ") .ident attr.text :: _) after :=
    .leaf hspace (attr.isLeaf (Shape.endsWord_mark (c := '=') (by decide) _)) hvalue
  have hname : Item.Reads (name.text ++ (utf8 " " ++ attr.text ++ (utf8 "=" ++ q :: rest))) (.leaf [] .ident name.text :: _)
      after := .leaf hblank (name.isLeaf (Shape.endsWord_encode (c := ' ') (by decide +kernel) _)) hattr
  have hall : Item.Reads (utf8 "<" ++ (name.text ++ (utf8 " " ++ attr.text ++ (utf8 "=" ++ q :: rest))))
    (.leaf [] (.punct '<') (utf8 "<") :: _) after := .leaf hblank (hless _) hname
  simpa [flatten, items, mark, utf8] using hall

/-- The opening tag around the tokens of its value is read. -/
theorem reads_opening (name attr : Word) (hvs : Item.Reads (q :: (v ++ q :: 0x3E :: r)) (flatten vs) (0x3E :: r)) :
    Item.Reads (openingSource name.text attr.text v q ++ r) (flatten (.mark none '<' :: .ident ⟨none, [], name.text⟩ ::
      .ident ⟨none, utf8 " ", attr.text⟩ :: .mark none '=' :: (vs ++ [.mark none '>']))) r := by
  have hgreater : Shape.Leaf (.punct '>') (utf8 ">") r := Shape.mark_isLeaf (c := '>') (by decide) r
  have hblank : Item.Blank [] := by simp [Item.Blank]
  have hend : Item.Reads (utf8 ">" ++ r) [.leaf [] (.punct '>') (utf8 ">")] r := .leaf hblank hgreater .nil
  have hall := reads_attribute name attr (hvs.append hend)
  have hgreater : String.utf8EncodeChar '>' = [0x3E] := rfl
  simpa [openingSource, flatten, flatten_append, items, mark, utf8, hgreater] using hall

/-- Tokens that are those of the opening tag wherever they stand. -/
theorem Opens.of_unplaced (hvs : Value v q vs) {as : List Token} (has : unplacedAll as = unplacedAll (.mark none '<' ::
    .ident ⟨none, [], name.text⟩ :: .ident ⟨none, utf8 " ", attr.text⟩ :: .mark none '=' :: (vs ++ [.mark none '>'])))
    (xs : List Token) : Opens name.text attr.text v q (as ++ xs) xs := by
  obtain ⟨lt, as, rfl, hlt, has⟩ := exists_same has
  obtain ⟨n, as, rfl, hn, has⟩ := exists_same has
  obtain ⟨a, as, rfl, ha, has⟩ := exists_same has
  obtain ⟨eq, as, rfl, heq, has⟩ := exists_same has
  rw [unplacedAll_append] at has
  obtain ⟨ws, as, rfl, hws, has⟩ := unplacedAll_eq_append has
  obtain ⟨gt, as, rfl, hgt, has⟩ := exists_same has
  obtain rfl := unplacedAll_eq_nil has
  obtain ⟨lt, rfl⟩ := hlt.punct
  obtain ⟨n, rfl⟩ := hn.ident
  obtain ⟨a, rfl⟩ := ha.ident
  obtain ⟨eq, rfl⟩ := heq.punct
  obtain ⟨gt, rfl⟩ := hgt.punct
  have hopens : Opens name.text attr.text v q _ xs := .tag lt n a eq gt (hvs.of_unplaced hws)
  simpa [mark] using hopens

end

theorem unmarked_opening (name attr v : Text) (q : UInt8) (r : Text) :
    Lexeme.unmarked (openingSource name attr v q ++ r) = openingSource name attr v q ++ r := by
  have hstrip : Text.strip? Lexeme.markBytes (openingSource name attr v q ++ r) = none := by
    simp [openingSource]
    rfl
  rw [Lexeme.unmarked, hstrip]
  rfl

theorem not_quote {cs : List Char} (hcs : ∀ c ∈ cs, c ∉ '\\' :: Text.brackets) :
    ∀ b ∈ Text.ofRunes cs, b ≠ 0x22 ∧ b ≠ 0x27 ∧ b ≠ 0x5C := by
  intro b hb
  refine ⟨?_, ?_, ?_⟩
  all_goals
    rintro rfl
    exact hcs _ (Text.mem_of_mem_ofRunes (by decide) hb) (by decide)

/-- If an element with a value between double quotes has tokens, it has the same with the value between apostrophes,
but for those of the value: if the value is one character, or no apostrophe comes right behind the tag. -/
theorem lex_requoted (name attr : Word) {cs : List Char} (hcs : ∀ c ∈ cs, c ∉ '\\' :: Text.brackets) {r : Text}
    (hr : (∃ c, cs = [c] ∧ c ≠ '\n') ∨ r.head? ≠ some 0x27) {ts : List Token} {left : Text}
    (h : lex (openingSource name.text attr.text (Text.ofRunes cs) 0x22 ++ r) = .ok (ts, left)) :
    ∃ us xs ys, lex (openingSource name.text attr.text (Text.ofRunes cs) 0x27 ++ r) = .ok (us, left) ∧
      Opens name.text attr.text (Text.ofRunes cs) 0x22 ts xs ∧ Opens name.text attr.text (Text.ofRunes cs) 0x27 us ys ∧
      unplacedAll ys = unplacedAll xs := by
  obtain ⟨-, hleft⟩ := reads_of_lex h
  obtain ⟨vs, hvs, hapostrophes⟩ := exists_apostrophes hcs hr
  have hplain : ∀ b ∈ Text.ofRunes cs, b ≠ 0x22 ∧ b ≠ 0x5C := fun b hb =>
    ⟨(not_quote hcs b hb).1, (not_quote hcs b hb).2.2⟩
  have hquoted := reads_opening name attr (reads_string hplain r)
  rw [← unmarked_opening] at hquoted
  obtain ⟨is, hts, hread⟩ := reads_behind h hquoted
  obtain ⟨as, xs, rfl, has, hitems⟩ := exists_append_of_flatten hts
  have hsingle := (reads_opening name attr hapostrophes).append hread
  rw [← unmarked_opening, ← hitems, ← flatten_append] at hsingle
  obtain ⟨us, hlex, hsame⟩ := lex_of_reads hsingle hleft
  rw [unplacedAll_append] at hsame
  obtain ⟨bs, ys, rfl, hbs, hys⟩ := unplacedAll_eq_append hsame
  exact ⟨bs ++ ys, xs, ys, hlex, .of_unplaced (.string none) has xs, .of_unplaced hvs hbs ys, hys⟩

/-! ## Values that are not closed -/

/-- The bytes of a leaf are in the text. -/
theorem mem_of_reads {t left : Text} {is : List Item} (h : Item.Reads t is left) {space raw : Text} {s : Shape}
    (hmem : .leaf space s raw ∈ is) {b : UInt8} (hb : b ∈ raw) : b ∈ t := by
  induction h with
  | nil => cases hmem
  | opening _ _ _ ih | closing _ _ _ ih =>
    cases hmem with
    | tail _ hmem => exact List.mem_append_right _ (ih hmem)
  | leaf _ _ _ ih =>
    cases hmem with
    | head => exact List.mem_append_left _ (List.mem_append_right _ hb)
    | tail _ hmem => exact List.mem_append_right _ (ih hmem)

/-- A text without apostrophes has no tokens that are one. -/
theorem not_apostrophe_of_reads {r left : Text} {ts : List Token} (h : Item.Reads r (flatten ts) left) (hr : 0x27 ∉ r) :
    ∀ t ∈ ts, t.isPunct '\'' = false := by
  have hflatten {t : Token} {i : Item} {ts : List Token} (ht : t ∈ ts) (hi : i ∈ t.items) : i ∈ flatten ts := by
    induction ht with
    | head => exact List.mem_append_left _ hi
    | tail _ _ ih => exact List.mem_append_right _ ih
  intro t ht
  refine Bool.eq_false_iff.mpr fun hquote => hr ?_
  cases t with
  | punct p =>
    have hchar : p.char = '\'' := of_decide_eq_true hquote
    have hmem : .leaf p.space (.punct p.char) (String.utf8EncodeChar p.char) ∈ flatten ts := hflatten ht (.head _)
    rw [hchar] at hmem
    exact mem_of_reads h hmem (.head _)
  | _ => cases hquote

/-- Where an apostrophe comes right behind the tag, it ends a character literal that the second apostrophe of the value
begins, unless the value is one character. If there is no other one, the value is not closed. -/
theorem lex_unclosed (name attr : Word) {cs : List Char} (hcs : ∀ c ∈ cs, c ∉ '\\' :: Text.brackets)
    (hmore : ∀ c, cs = [c] → c = '\n') {r : Text} (hr : 0x27 ∉ r) {ts : List Token} {left : Text}
    (h : lex (openingSource name.text attr.text (Text.ofRunes cs) 0x22 ++ 0x27 :: r) = .ok (ts, left)) :
    ∃ lt pos pos' equals quote vs, lex (openingSource name.text attr.text (Text.ofRunes cs) 0x27 ++ 0x27 :: r) =
        .ok (.mark lt '<' :: .ident ⟨pos, [], name.text⟩ :: .ident ⟨pos', utf8 " ", attr.text⟩ :: .mark equals '=' ::
          .mark quote '\'' :: vs, left) ∧ ∀ t ∈ vs, t.isPunct '\'' = false := by
  have hblank : Item.Blank [] := by simp [Item.Blank]
  obtain ⟨-, hleft⟩ := reads_of_lex h
  have hplain : ∀ b ∈ Text.ofRunes cs, b ≠ 0x22 ∧ b ≠ 0x5C := fun b hb =>
    ⟨(not_quote hcs b hb).1, (not_quote hcs b hb).2.2⟩
  have hlone : Item.Reads (0x27 :: r) (flatten [.mark none '\'']) r := by
    refine .leaf hblank (Shape.apostrophe_isLeaf fun body after _ hrune => hr ?_) .nil
    rw [hrune]
    simp
  have hquoted := (reads_opening name attr (reads_string hplain (0x27 :: r))).append hlone
  rw [← unmarked_opening, ← flatten_append] at hquoted
  obtain ⟨is, hts, hread⟩ := reads_behind h hquoted
  obtain ⟨as, xs, rfl, -, rfl⟩ := exists_append_of_flatten hts
  obtain ⟨vs, space, hmark, -, hspace, hvalue⟩ := exists_plainValue hcs hmore
  have hrune : Item.Reads (space ++ [0x27, 0x3E, 0x27] ++ r) (.leaf space (.literal .rune) [0x27, 0x3E, 0x27] :: flatten xs)
    left := .leaf hspace (.rune (.char (c := '>') (by decide) (by decide) (by decide))) hread
  rw [List.append_assoc] at hrune
  have hsingle := reads_attribute name attr (hvalue hrune)
  have hall : Item.Reads (openingSource name.text attr.text (Text.ofRunes cs) 0x27 ++ 0x27 :: r) (flatten (.mark none '<' ::
      .ident ⟨none, [], name.text⟩ :: .ident ⟨none, utf8 " ", attr.text⟩ :: .mark none '=' :: .mark none '\'' ::
        (vs ++ .literal ⟨none, space, .rune, [0x27, 0x3E, 0x27]⟩ :: xs))) left := by
    have hgreater : utf8 ">" = [0x3E] := rfl
    simpa [openingSource, flatten, flatten_append, items, hgreater] using hsingle
  rw [← unmarked_opening] at hall
  obtain ⟨us, hlex, hsame⟩ := lex_of_reads hall hleft
  obtain ⟨lt, us, rfl, hlt, hname⟩ := exists_same hsame
  obtain ⟨n, us, rfl, hn, hattr⟩ := exists_same hname
  obtain ⟨a, us, rfl, ha, hequals⟩ := exists_same hattr
  obtain ⟨eq, us, rfl, heq, hopen⟩ := exists_same hequals
  obtain ⟨quote, us, rfl, hquote, hbehind⟩ := exists_same hopen
  obtain ⟨lt, rfl⟩ := hlt.punct
  obtain ⟨n, rfl⟩ := hn.ident
  obtain ⟨a, rfl⟩ := ha.ident
  obtain ⟨eq, rfl⟩ := heq.punct
  obtain ⟨quote, rfl⟩ := hquote.punct
  refine ⟨lt, n, a, eq, quote, us, hlex, not_isPunct_of_unplaced hbehind ?_⟩
  intro t ht
  rcases List.mem_append.mp ht with ht | ht
  · exact hmark t ht
  · rcases List.mem_cons.mp ht with rfl | ht
    · rfl
    · exact not_apostrophe_of_reads hread hr t ht

end Token
end Atmark
