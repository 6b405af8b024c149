import Atmark.Proofs.Directive.Environment
import Atmark.Proofs.Parse.Closing
import Atmark.Proofs.Parse.Plain
import Atmark.Proofs.Parse.WrittenTag

/-! Elements with raw text. Their content is copied byte for byte up to their closing tag, which is recognised by the
one token behind `</`. So a name of one token has an element whatever else its content holds, and a name of more
tokens has none (`Template.parse_rawElement`). -/
namespace Atmark
open ParseM

namespace Text

/-- Only `<` is folded to `<`. -/
theorem foldChar_eq_less {c : Char} (h : foldChar c = '<') : c = '<' := by
  rcases eq_or_exists_run (by decide) h with h | ⟨run, hrun, -, himage⟩
  · exact h
  · have hall : foldRuns.all (fun run => 60 < run.image) = true := by decide +kernel
    have himage' := of_decide_eq_true (List.all_eq_true.mp hall run hrun)
    have himage : run.image + (c.toNat - run.lo) = 60 := himage
    omega

theorem sameFold_self (t : Text) : sameFold t t = true := beq_self_eq_true _

end Text

/-- The names of raw text that are set are raw text, in any case. -/
theorem Registry.isRawText_setRawTextTags (r : Registry) {names : List Text} {name : Text} (h : name ∈ names) :
    (r.setRawTextTags names).isRawText name = true := by
  have hlower : Text.lower name ∈ (names.map Text.lower).eraseDups := List.mem_eraseDups.mpr (List.mem_map_of_mem h)
  show (tagSet names).contains (Text.lower name) = true
  rw [List.contains_eq_mem, decide_eq_true_iff]
  simpa [tagSet, Text.sort] using hlower

namespace Token

theorem isPunct_of_continues {t : Token} {c : Char} (h : t.continuesTagName = true) (hc : c ∉ ['!', '-', '_']) :
    t.isPunct c = false := by
  by_contra hpunct
  rw [eq_punct (show t.isPunct c = true by simpa using hpunct)] at h
  simp only [continuesTagName, startsTagName, Bool.or_eq_true, decide_eq_true_eq] at h
  rcases h with (rfl | rfl) | rfl <;> exact hc (by decide)

/-- The tokens are a tag name, next to each other. -/
structure SpellsName (name : Text) (ns : List Token) : Prop where
  spelled : tagName ns = name
  starts : ns.head?.any startsTagName = true
  continues : ∀ t ∈ ns, t.glued = true ∧ t.continuesTagName = true
  /-- What starts with `<!--` is a comment. -/
  element : gluedMarks ['!', '-', '-'] ns = false

theorem gluedMarks_unplacedAll (cs : List Char) (ts : List Token) :
    gluedMarks cs (unplacedAll ts) = gluedMarks cs ts := by
  induction cs generalizing ts with
  | nil => cases ts <;> rfl
  | cons c cs ih =>
    cases ts with
    | nil => rfl
    | cons t ts => simp only [unplacedAll, gluedMarks, isPunct_unplaced, glued_unplaced, ih]

/-- It does not matter where the tokens stand. -/
theorem SpellsName.of_unplaced {name : Text} {ns ns' : List Token} (h : SpellsName name ns)
    (hsame : unplacedAll ns' = unplacedAll ns) : SpellsName name ns' where
  spelled := by
    have htagName (ts : List Token) : tagName ts = tagName (unplacedAll ts) := by
      simp [tagName, unplacedAll_eq_map, List.flatMap_map]
    rw [htagName, hsame, ← htagName, h.spelled]
  starts := by
    have hhead := h.starts
    cases ns with
    | nil => cases hhead
    | cons n ns =>
      obtain ⟨n', ns', rfl, hn, -⟩ := unplacedAll_eq_cons hsame
      have hsame' : Same n n' := hn
      simpa [hsame'.startsTagName] using hhead
  continues t ht := by
    have hmem : t.unplaced ∈ unplacedAll ns := by
      rw [← hsame, unplacedAll_eq_map]
      exact List.mem_map_of_mem ht
    rw [unplacedAll_eq_map] at hmem
    obtain ⟨u, hu, heq⟩ := List.mem_map.mp hmem
    have hsame' : Same u t := heq.symm
    rw [hsame'.glued, hsame'.continuesTagName]
    exact h.continues u hu
  element := by rw [← gluedMarks_unplacedAll, hsame, gluedMarks_unplacedAll, h.element]

/-- A tag name ends before the end of its tag. -/
theorem SpellsName.tokens {name : Text} {ns : List Token} (h : SpellsName name ns) (q : Option Position)
    (us : List Token) : tagNameTokens (ns ++ .mark q '>' :: us) = ns := by
  refine TagGoesOn.name_append ⟨_, us, rfl, .inr (.inl rfl)⟩ ?_ h.continues
  rintro rfl
  cases h.starts

/-- The closing tag of a name. -/
theorem SpellsName.written {name : Text} {ns : List Token} (h : SpellsName name ns) (p q e : Option Position)
    (space : Text) : ClosingTag.Written ⟨name, ns, p⟩ ⟨p, space, '<'⟩ (.mark q '/' :: (ns ++ [.mark e '>'])) where
  start := rfl
  pos := rfl
  name := h.spelled.symm
  first := by
    have hstarts := h.starts
    cases ns with
    | nil => cases hstarts
    | cons n ns =>
      have hstarts : n.startsTagName = true := hstarts
      simp [(h.continues n (.head _)).1, hstarts]
  parts := ⟨_, _, rfl, rfl, rfl, rfl, h.tokens e⟩

/-- The tokens are those of a tag name. -/
structure Names (name : Text) (ns : List Token) : Prop extends SpellsName name ns where
  lexed : lex name = .ok (ns, [])

/-- A character of the name of a tag. -/
def isNameChar (c : Char) : Bool := Text.isWordChar c || c = '!' || c = '-'

/-- A run of letters, digits and underscores. -/
theorem exists_nameChars_of_number {raw : Text} (h : ∀ b ∈ raw, Shape.isNumberByte b = true) :
    ∃ cs, raw = Text.ofRunes cs ∧ ∀ c ∈ cs, isNameChar c = true := by
  have hall : ∀ n : Fin 256, Shape.isNumberByte (UInt8.ofNat n.val) = true →
      n.val < 0x80 ∧ isNameChar (Char.ofNat n.val) = true := by decide +kernel
  have hbyte (b : UInt8) (hb : Shape.isNumberByte b = true) : b.toNat < 0x80 ∧ isNameChar (Char.ofNat b.toNat) = true :=
    hall ⟨b.toNat, b.toNat_lt⟩ (by simpa using hb)
  obtain ⟨cs, rfl⟩ := Text.exists_ofRunes_of_ascii fun b hb => (hbyte b (h b hb)).1
  refine ⟨cs, rfl, fun c hc => ?_⟩
  obtain ⟨b, bs, hencode⟩ := List.exists_cons_of_ne_nil (String.utf8EncodeChar_ne_nil (c := c))
  have hb : b ∈ String.utf8EncodeChar c := by simp [hencode]
  have hnumber := h b (List.mem_flatMap.mpr ⟨c, hc, hb⟩)
  obtain ⟨hcode, -⟩ := Text.encode_of_mem_ascii (hbyte b hnumber).1 hb
  rw [← Char.ofNat_toNat c, hcode]
  exact (hbyte b hnumber).2

theorem exists_mem_items {ts : List Token} {i : Item} (h : i ∈ flatten ts) : ∃ t ∈ ts, i ∈ t.items := by
  induction ts with
  | nil => cases h
  | cons t ts ih =>
    rcases List.mem_append.mp h with h | h
    · exact ⟨t, .head _, h⟩
    · obtain ⟨u, hu, hi⟩ := ih h
      exact ⟨u, .tail _ hu, hi⟩

/-- What a token of a name spells. -/
theorem exists_nameChars {t : Token} {s : Shape} {space raw rest : Text} (hitems : t.items = [.leaf space s raw])
    (hleaf : Shape.Leaf s raw rest) (ht : t.continuesTagName = true) :
    ∃ cs, cs ≠ [] ∧ raw = Text.ofRunes cs ∧ ∀ c ∈ cs, isNameChar c = true := by
  cases hleaf with
  | ident hc hcs =>
    refine ⟨_, by simp, rfl, fun d hd => ?_⟩
    rcases List.mem_cons.mp hd with rfl | hd
    · rcases hc with rfl | hc
      · decide +kernel
      · simp [isNameChar, Text.isWordChar, hc]
    · simp [isNameChar, hcs d hd]
  | @punct c =>
    refine ⟨[c], by simp, by simp [Text.ofRunes], fun d hd => ?_⟩
    obtain rfl := List.mem_singleton.mp hd
    obtain ⟨pos, rfl⟩ := items_eq_leaf hitems
    have hd : d = '!' ∨ d = '-' ∨ d = '_' := by
      simpa [continuesTagName, startsTagName, or_assoc] using ht
    rcases hd with rfl | rfl | rfl <;> decide +kernel
  | number hnumber =>
    obtain ⟨pos, rfl⟩ := items_eq_leaf hitems
    rename_i kind
    obtain rfl : kind = .int := by simpa [continuesTagName] using ht
    generalize hkind : LiteralKind.int = kind at hnumber
    cases hnumber with
    | point => cases hkind
    | whole hdigit hrun =>
      have hsign : raw.any Shape.isSign = false := by
        by_contra hsign
        rw [if_pos (by simpa using hsign)] at hkind
        cases hkind
      have hbytes : ∀ b ∈ raw, Shape.isNumberByte b = true := by
        intro b hb
        obtain ⟨before, after, hraw⟩ := List.append_of_mem hb
        rcases hrun.continues before b after hraw with hnumber | ⟨hb', -⟩
        · exact hnumber
        · rw [List.any_eq_false] at hsign
          exact (hsign b hb hb').elim
      obtain ⟨cs, rfl, hcs⟩ := exists_nameChars_of_number hbytes
      refine ⟨cs, ?_, rfl, hcs⟩
      rintro rfl
      exact hdigit.ne_nil rfl
  | string | rawString | rune =>
    obtain ⟨pos, rfl⟩ := items_eq_leaf hitems
    cases ht

theorem sourceWithSpace_of_continues {ns : List Token}
    (h : ∀ t ∈ ns, t.glued = true ∧ t.continuesTagName = true) : sourceWithSpace ns = tagName ns := by
  induction ns with
  | nil => rfl
  | cons t ns ih =>
    obtain ⟨hglued, hcontinues⟩ := h t (.head _)
    have hspace : t.space = [] := by simpa [glued] using hglued
    have hbrief : t.brief = t.source := by
      refine brief_eq_source ?_
      rintro f ts rfl
      cases hcontinues
    rw [sourceWithSpace, hspace, ih fun u hu => h u (.tail _ hu), ← hbrief]
    rfl

namespace Names
variable {name : Text} {ns : List Token}

theorem reads (h : Names name ns) : Item.Reads name (flatten ns) [] := by
  have hsource := lex_unmarked h.lexed
  rw [List.append_nil, sourceWithSpace_of_continues h.continues, h.spelled] at hsource
  rw [hsource]
  exact (reads_of_lex h.lexed).1

theorem exists_nameChars (h : Names name ns) (ts : List Token) (hts : ∀ t ∈ ts, t ∈ ns) :
    ∃ cs, tagName ts = Text.ofRunes cs ∧ (ts ≠ [] → cs ≠ []) ∧ ∀ c ∈ cs, isNameChar c = true := by
  induction ts with
  | nil => exact ⟨[], rfl, fun hne => (hne rfl).elim, by simp⟩
  | cons t ts ih =>
    obtain ⟨cs, hspelled, -, hcs⟩ := ih fun u hu => hts u (.tail _ hu)
    have hcontinues := (h.continues t (hts t (.head _))).2
    obtain ⟨space, s, raw, hitems⟩ : ∃ space s raw, t.items = [.leaf space s raw] := by
      cases t with
      | group => cases hcontinues
      | ident | literal | punct => exact ⟨_, _, _, rfl⟩
    have hmem : .leaf space s raw ∈ flatten ns := by
      obtain ⟨as, bs, rfl⟩ := List.append_of_mem (hts t (.head _))
      simp [flatten_append, flatten, hitems]
    obtain ⟨rest, hleaf⟩ := exists_leaf_of_reads h.reads hmem
    obtain ⟨ds, hne, rfl, hds⟩ := Token.exists_nameChars hitems hleaf hcontinues
    refine ⟨ds ++ cs, ?_, by simp [hne], ?_⟩
    · rw [tagName, List.flatMap_cons, (brief_of_items hitems).2, Text.ofRunes_append, ← hspelled]
      rfl
    · intro c hc
      rcases List.mem_append.mp hc with hc | hc
      · exact hds c hc
      · exact hcs c hc

/-- No other ASCII character is in a name. -/
theorem not_mem (h : Names name ns) {b : UInt8} (hb : b.toNat < 0x80) (hchar : isNameChar (Char.ofNat b.toNat) = false) :
    b ∉ name := by
  obtain ⟨cs, hspelled, -, hcs⟩ := h.exists_nameChars ns fun _ ht => ht
  rw [← h.spelled, hspelled]
  intro hmem
  have hmem := hcs _ (Text.mem_of_mem_ofRunes hb hmem)
  rw [hchar] at hmem
  cases hmem

/-- The character that starts a tag is no name. -/
theorem sameFold_less (h : Names name ns) : Text.sameFold (utf8 "<") name = false := by
  obtain ⟨cs, hspelled, -, hcs⟩ := h.exists_nameChars ns fun _ ht => ht
  by_contra hsame
  have hless : Text.folded (utf8 "<") = ['<'] := by decide +kernel
  have hfolded : ['<'] = Text.folded name := by simpa [Text.sameFold, hless] using hsame
  rw [← h.spelled, hspelled, Text.folded, Text.runes_ofRunes] at hfolded
  cases cs with
  | nil => cases hfolded
  | cons c cs =>
    have hchar := hcs c (.head _)
    rw [Text.foldChar_eq_less (List.cons.inj hfolded).1.symm] at hchar
    exact absurd hchar (by decide +kernel)

/-- The first of more tokens spells another text than the name. -/
theorem sameFold_first (h : Names name ns) {t : Token} {ts : List Token} (hns : ns = t :: ts) (hts : ts ≠ []) :
    Text.sameFold t.brief name = false := by
  subst hns
  obtain ⟨cs, hspelled, -, -⟩ := h.exists_nameChars [t] (by simp)
  obtain ⟨ds, hspelled', hne, -⟩ := h.exists_nameChars ts fun _ ht => .tail _ ht
  have hname : name = Text.ofRunes (cs ++ ds) := by
    rw [← h.spelled, Text.ofRunes_append, ← hspelled, ← hspelled']
    simp [tagName]
  by_contra hsame
  have hlength := Text.length_runes_of_sameFold (s := t.brief) (t := name) (by simpa using hsame)
  have hbrief : t.brief = Text.ofRunes cs := by simpa [tagName] using hspelled
  rw [hbrief, hname, Text.runes_ofRunes, Text.runes_ofRunes, List.length_append] at hlength
  exact hne hts (List.length_eq_zero_iff.mp (by omega))

theorem not_quote (h : Names name ns) (space raw : Text) : .leaf space (.punct '\'') raw ∉ flatten ns := by
  intro hmem
  obtain ⟨t, ht, hitem⟩ := exists_mem_items hmem
  have hcontinues := (h.continues t ht).2
  cases t with
  | group => cases hcontinues
  | ident | literal => simp [items] at hitem
  | punct p =>
    obtain ⟨-, hquote, -⟩ := Item.leaf.inj (List.mem_singleton.mp hitem)
    have hchar := isPunct_of_continues (c := '\'') hcontinues (by decide)
    simp [isPunct, Shape.punct.inj hquote.symm] at hchar

/-- A name is read in the same way before the end of its tag. -/
theorem reads_tag (h : Names name ns) {rest left : Text} {is : List Item} (hrest : Item.Reads rest is left) :
    Item.Reads (name ++ (utf8 ">" ++ rest)) (flatten ns ++ .leaf [] (.punct '>') (utf8 ">") :: is) left := by
  obtain ⟨read, hname, hresume⟩ := h.reads.resume_unquoted h.not_quote
  rw [List.append_nil] at hname
  subst hname
  have hempty : Item.Blank [] := by simp [Item.Blank]
  have hleaf : Shape.Leaf (.punct '>') (utf8 ">") rest := Shape.mark_isLeaf (c := '>') (by decide) rest
  have hend : Item.Reads (utf8 ">" ++ rest) (.leaf [] (.punct '>') (utf8 ">") :: is) left := .leaf hempty hleaf hrest
  refine (hresume _ fun b r hb => ?_).append hend
  obtain ⟨rfl, -⟩ := List.cons.inj hb
  decide +kernel

end Names

/-- The tokens of an element: those of its two tags, and those of its content between them. -/
def element (ns cs : List Token) (left : Text) : List Token :=
  .mark none '<' :: (ns ++ .mark none '>' :: (cs ++ .punct ⟨none, left, '<'⟩ :: .mark none '/' ::
    (ns ++ [.mark none '>'])))

/-- The content of an element is read as by itself. -/
theorem lex_element {name content left : Text} {ns cs : List Token} (hname : Names name ns)
    (hcontent : lex content = .ok (cs, left)) (hmark : Lexeme.unmarked content = content) :
    ∃ us, lex (utf8 "<" ++ name ++ utf8 ">" ++ content ++ utf8 "</" ++ name ++ utf8 ">") = .ok (us, []) ∧
      unplacedAll us = unplacedAll (element ns cs left) := by
  have hempty : Item.Blank [] := by simp [Item.Blank]
  obtain ⟨hread, hleft⟩ := reads_of_lex hcontent
  rw [hmark] at hread
  obtain ⟨read, hsource, hresume⟩ := hread.resume
  have hless (rest : Text) : Shape.Leaf (.punct '<') (utf8 "<") rest := Shape.mark_isLeaf (c := '<') (by decide) rest
  have hsolidus (rest : Text) : Shape.Leaf (.punct '/') (utf8 "/") rest := Shape.mark_isLeaf (c := '/') (by decide) rest
  have hslash : Item.Reads (utf8 "/" ++ (name ++ (utf8 ">" ++ []))) (.leaf [] (.punct '/') (utf8 "/") ::
      (flatten ns ++ [.leaf [] (.punct '>') (utf8 ">")])) [] := .leaf hempty (hsolidus _) (hname.reads_tag .nil)
  generalize hclose : utf8 "/" ++ (name ++ (utf8 ">" ++ [])) = close at hslash
  have hclosing : Item.Reads (left ++ utf8 "<" ++ close) (.leaf left (.punct '<') (utf8 "<") ::
      .leaf [] (.punct '/') (utf8 "/") :: (flatten ns ++ [.leaf [] (.punct '>') (utf8 ">")])) [] :=
    .leaf hleft (hless close) hslash
  have hresumes : Shape.Resumes left (left ++ utf8 "<" ++ close) := by
    refine Shape.resumes_of_not_mem (fun b r hb => ?_) ?_
    · cases left with
      | nil =>
        obtain ⟨rfl, -⟩ := List.cons.inj hb
        decide +kernel
      | cons c left =>
        obtain ⟨rfl, -⟩ := List.cons.inj hb
        exact Shape.halts_of_boundary (by simp [Shape.isLeafByte, hleft c (.head _)])
    · have hquote : (0x27 : UInt8) ∉ left := fun hmem => absurd (hleft _ hmem) (by decide)
      have hname' := hname.not_mem (b := 0x27) (by decide) (by decide +kernel)
      have hmarks : (0x27 : UInt8) ∉ utf8 "<" ∧ (0x27 : UInt8) ∉ utf8 "/" ∧ (0x27 : UInt8) ∉ utf8 ">" := by decide
      simp [← hclose, hquote, hname', hmarks]
  have hopening : Item.Reads (utf8 "<" ++ (name ++ (utf8 ">" ++ (read ++ (left ++ utf8 "<" ++ close)))))
      (.leaf [] (.punct '<') (utf8 "<") :: (flatten ns ++ .leaf [] (.punct '>') (utf8 ">") :: (flatten cs ++
        (.leaf left (.punct '<') (utf8 "<") :: .leaf [] (.punct '/') (utf8 "/") ::
          (flatten ns ++ [.leaf [] (.punct '>') (utf8 ">")]))))) [] :=
    .leaf hempty (hless _) (hname.reads_tag ((hresume _ hresumes).append hclosing))
  refine lex_of_reads ?_ hempty
  have hunmarked : Lexeme.unmarked (utf8 "<" ++ name ++ utf8 ">" ++ content ++ utf8 "</" ++ name ++ utf8 ">") =
      utf8 "<" ++ name ++ utf8 ">" ++ content ++ utf8 "</" ++ name ++ utf8 ">" := by
    have hstrip : Text.strip? Lexeme.markBytes
      (utf8 "<" ++ name ++ utf8 ">" ++ content ++ utf8 "</" ++ name ++ utf8 ">") = none := rfl
    rw [Lexeme.unmarked, hstrip]
    rfl
  rw [hunmarked]
  simpa [element, flatten_append, flatten, items, Token.mark, utf8, hsource, ← hclose] using hopening

/-- The tokens of an element, wherever they stand. -/
theorem exists_element {us ns cs : List Token} {left : Text} (h : unplacedAll us = unplacedAll (element ns cs left)) :
    ∃ p q p' q' e names names' ds, us = .mark p '<' :: (names ++ .mark q '>' :: (ds ++ .punct ⟨p', left, '<'⟩ ::
        .mark q' '/' :: (names' ++ [.mark e '>']))) ∧
      unplacedAll names = unplacedAll ns ∧ unplacedAll ds = unplacedAll cs ∧ unplacedAll names' = unplacedAll ns := by
  have hmark {t : Token} {c : Char} (ht : t.unplaced = (mark none c).unplaced) : ∃ p, t = .mark p c := by
    have hsame : Same (mark none c) t := ht
    exact hsame.punct
  rw [element, unplacedAll] at h
  obtain ⟨lt, us, rfl, hlt, h⟩ := unplacedAll_eq_cons h
  rw [unplacedAll_append] at h
  obtain ⟨names, us, rfl, hnames, h⟩ := unplacedAll_eq_append h
  rw [unplacedAll] at h
  obtain ⟨gt, us, rfl, hgt, h⟩ := unplacedAll_eq_cons h
  rw [unplacedAll_append] at h
  obtain ⟨ds, us, rfl, hds, h⟩ := unplacedAll_eq_append h
  rw [unplacedAll, unplacedAll] at h
  obtain ⟨lt', us, rfl, hlt', h⟩ := unplacedAll_eq_cons h
  obtain ⟨slash, us, rfl, hslash, h⟩ := unplacedAll_eq_cons h
  rw [unplacedAll_append, unplacedAll] at h
  obtain ⟨names', us, rfl, hnames', h⟩ := unplacedAll_eq_append h
  obtain ⟨gt', us, rfl, hgt', h⟩ := unplacedAll_eq_cons h
  obtain rfl := unplacedAll_eq_nil h
  obtain ⟨p, rfl⟩ := hmark hlt
  obtain ⟨q, rfl⟩ := hmark hgt
  obtain ⟨q', rfl⟩ := hmark hslash
  obtain ⟨e, rfl⟩ := hmark hgt'
  have hsame : Same (.punct ⟨none, left, '<'⟩) lt' := hlt'
  obtain ⟨p', rfl⟩ := hsame.punct
  exact ⟨p, q, p', q', e, names, names', ds, rfl, hnames, hds, hnames'⟩

/-- Before the tokens `us`, the tokens are copied as raw text of the element: none of them is a marker or starts its
closing tag. -/
def isRaw (name : Text) (us : List Token) : List Token → Bool
  | [] => true
  | t :: ts => !(t.isPunct '<' && Registry.closesRawText name (ts ++ us)) && !t.isPunct '@' && isRaw name us ts

theorem isRaw_unplacedAll (name : Text) (us : List Token) {ts ts' : List Token} (h : unplacedAll ts = unplacedAll ts') :
    isRaw name us ts = isRaw name us ts' := by
  induction ts generalizing ts' with
  | nil =>
    rw [unplacedAll_eq_nil h.symm]
  | cons t ts ih =>
    obtain ⟨t', ts', rfl, ht, hts⟩ := unplacedAll_eq_cons h.symm
    have hsame : Same t t' := ht
    have hcloses : Registry.closesRawText name (ts ++ us) = Registry.closesRawText name (ts' ++ us) := by
      cases ts with
      | nil =>
        rw [unplacedAll_eq_nil hts]
      | cons a ts =>
        obtain ⟨a', ts', rfl, ha, hts⟩ := unplacedAll_eq_cons hts
        have hsame : Same a a' := ha
        cases ts with
        | nil =>
          rw [unplacedAll_eq_nil hts]
          cases us with
          | nil => rfl
          | cons => simp [Registry.closesRawText, hsame.isPunct, hsame.glued]
        | cons b ts =>
          obtain ⟨b', ts', rfl, hb, -⟩ := unplacedAll_eq_cons hts
          have hsame' : Same b b' := hb
          simp [Registry.closesRawText, hsame.isPunct, hsame.glued, hsame'.glued, hsame'.brief]
    simp only [isRaw, hsame.isPunct, hcloses, ih hts.symm]

theorem isRaw_append (name : Text) (us ts vs : List Token) :
    isRaw name us (ts ++ vs) = (isRaw name (vs ++ us) ts && isRaw name us vs) := by
  induction ts with
  | nil => rfl
  | cons t ts ih => simp only [List.cons_append, isRaw, ih, List.append_assoc, Bool.and_assoc]

theorem isRaw_of_forall (name : Text) (us : List Token) {ts : List Token}
    (h : ∀ t ∈ ts, t.isPunct '<' = false ∧ t.isPunct '@' = false) : isRaw name us ts = true := by
  induction ts with
  | nil => rfl
  | cons t ts ih =>
    obtain ⟨hlt, hmarker⟩ := h t (.head _)
    simp [isRaw, hlt, hmarker, ih fun u hu => h u (.tail _ hu)]

/-- A `<` behind the tokens does not make them start the closing tag. -/
theorem isRaw_before {name : Text} (hname : Text.sameFold (utf8 "<") name = false) {lt : Token}
    (hlt : lt.isPunct '<' = true) (us : List Token) {ts : List Token} (h : isRaw name [] ts = true) :
    isRaw name (lt :: us) ts = true := by
  induction ts with
  | nil => rfl
  | cons t ts ih =>
    have hcloses : Registry.closesRawText name (ts ++ lt :: us) = Registry.closesRawText name (ts ++ []) := by
      have hbrief : lt.brief = utf8 "<" := by
        rw [eq_punct hlt]
        rfl
      cases ts with
      | nil =>
        have hslash : lt.isPunct '/' = false := by
          rw [eq_punct hlt]
          rfl
        cases us <;> simp [Registry.closesRawText, hslash]
      | cons a ts =>
        cases ts with
        | nil => simp [Registry.closesRawText, hbrief, hname]
        | cons => simp [Registry.closesRawText]
    simp only [isRaw, Bool.and_eq_true] at h ⊢
    rw [hcloses]
    exact ⟨h.1, ih h.2⟩

end Token

theorem State.Plain.movedOver {s : State} {w : World} {text : Text} {ts : List Token} (h : s.Plain w text ts)
    (xs us : List Token) : (s.movedOver xs us).Plain w text us :=
  ⟨h.sink, rfl, h.world, h.markup, h.trimLine, h.broken⟩

namespace Registry
variable {r : Registry} {t : Tools} {name text : Text} {w : World} {s : State} {ts us : List Token}

/-- One token is looked at behind `</`. -/
theorem closesRawText_closing {n : Token} (hn : n.glued = true) (q : Option Position) (us : List Token) :
    closesRawText name (.mark q '/' :: n :: us) = Text.sameFold n.brief name := by
  show (true && true && n.glued && Text.sameFold n.brief name) = _
  rw [hn]
  rfl

/-- The closing tag of a name of one token is recognised. -/
theorem closesRawText_one {ns : List Token} (h : Token.SpellsName name ns) (hone : ns.length = 1)
    (q : Option Position) (us : List Token) : closesRawText name (.mark q '/' :: (ns ++ us)) = true := by
  obtain ⟨n, rfl⟩ := List.length_eq_one_iff.mp hone
  have hbrief : n.brief = name := by simpa [tagName] using h.spelled
  rw [List.singleton_append, closesRawText_closing (h.continues n (.head _)).1, hbrief, Text.sameFold_self]

/-- The closing tag of a name of more tokens is copied. -/
theorem isRaw_closing {ns ns' : List Token} (h : Token.Names name ns) (hsame : Token.unplacedAll ns' = Token.unplacedAll ns)
    (hmore : 1 < ns.length) (p q e : Option Position) (space : Text) :
    Token.isRaw name [] (.punct ⟨p, space, '<'⟩ :: .mark q '/' :: (ns' ++ [.mark e '>'])) = true := by
  have hspells := h.toSpellsName.of_unplaced hsame
  have hcloses : closesRawText name (.mark q '/' :: (ns' ++ [.mark e '>']) ++ []) = false := by
    cases ns with
    | nil => cases hmore
    | cons m ms =>
      obtain ⟨m', ms', rfl, hm, -⟩ := Token.unplacedAll_eq_cons hsame
      have hsame : Token.Same m m' := hm
      rw [List.append_nil, List.cons_append, closesRawText_closing (hspells.continues m' (.head _)).1, hsame.brief]
      refine h.sameFold_first rfl ?_
      rintro rfl
      exact absurd hmore (by simp)
  have hfree : Token.isRaw name [] (.mark q '/' :: (ns' ++ [.mark e '>'])) = true := by
    refine Token.isRaw_of_forall name [] fun t ht => ?_
    simp only [List.mem_cons, List.mem_append, List.not_mem_nil, or_false] at ht
    rcases ht with rfl | ht | rfl
    · exact ⟨rfl, rfl⟩
    · have hcontinues := (hspells.continues t ht).2
      exact ⟨Token.isPunct_of_continues hcontinues (by decide), Token.isPunct_of_continues hcontinues (by decide)⟩
    · exact ⟨rfl, rfl⟩
  rw [Token.isRaw, hcloses, hfree]
  rfl

/-- Tokens of raw text are copied. -/
theorem rawText_copies (hw : w.budget = none) (n : Nat) (hraw : Token.isRaw name us ts = true)
    (h : s.Plain w text (ts ++ us)) :
    ∃ u, u.Plain w (text ++ Token.sourceWithSpace ts) us ∧
      r.rawTextWithin t name (n + ts.length) s = r.rawTextWithin t name n u := by
  induction ts generalizing s text with
  | nil => exact ⟨s, by simpa [Token.sourceWithSpace] using h, rfl⟩
  | cons tok ts ih =>
    simp only [Token.isRaw, Bool.and_eq_true, Bool.not_eq_true'] at hraw
    obtain ⟨⟨hclose, hmarker⟩, hraw⟩ := hraw
    have hv := (h.skip 1 tok.pos).pushText tok.pos (Token.sourceWithSpace [tok])
    obtain ⟨u, hu, hread⟩ := ih hraw hv
    refine ⟨u, by simpa [Token.sourceWithSpace] using hu, ?_⟩
    rw [← hread, List.length_cons, ← Nat.add_assoc]
    exact rawTextWithin_copy (checkStop_unlimited (h.world ▸ hw)) h.rest hclose (by simp [hmarker])

/-- Raw text goes up to the end of the tokens if the closing tag of its element is not among them. -/
theorem rawText_ends (hw : w.budget = none) {n : Nat} (hn : ts.length < n) (hraw : Token.isRaw name [] ts = true)
    (h : s.Plain w text ts) :
    ∃ u, u.Plain w (text ++ Token.sourceWithSpace ts) [] ∧ Returns (r.rawTextWithin t name n) s none u := by
  obtain ⟨k, rfl⟩ : ∃ k, n = k + 1 + ts.length := ⟨n - 1 - ts.length, by omega⟩
  rw [← List.append_nil ts] at h
  obtain ⟨u, hu, hread⟩ := rawText_copies (r := r) (t := t) hw (k + 1) hraw h
  refine ⟨u, hu, ?_⟩
  have hend : r.rawTextWithin t name (k + 1) u = .ok none u := by
    unfold rawTextWithin
    rw [(checkStop_unlimited (hu.world ▸ hw)).bind_eq, rest_bind, hu.rest]
    rfl
  exact hread.trans hend

/-- Raw text goes up to the closing tag of its element. -/
theorem rawText_closes (hw : w.budget = none) {n : Nat} (hn : ts.length < n) {lt : Punct} {closing : List Token}
    {c : ClosingTag} (hraw : Token.isRaw name (.punct lt :: closing) ts = true)
    (hcloses : closesRawText name closing = true) (hwritten : c.Written lt closing)
    (h : s.Plain w text (ts ++ .punct lt :: closing)) :
    ∃ u, u.Plain w (text ++ (Token.sourceWithSpace ts ++ lt.space)) [] ∧
      Returns (r.rawTextWithin t name n) s (some c) u := by
  obtain ⟨k, rfl⟩ : ∃ k, n = k + 1 + ts.length := ⟨n - 1 - ts.length, by omega⟩
  obtain ⟨v, hv, hread⟩ := rawText_copies (r := r) (t := t) hw (k + 1) hraw h
  have hspaced := (hv.setLast lt.pos).pushText lt.pos lt.space
  have hclosed := hwritten.returns rfl (hspaced.rest.trans (List.append_nil _).symm)
  have hu := hspaced.movedOver (.punct lt :: closing) []
  rw [List.append_assoc] at hu
  refine ⟨_, hu, hread.trans ?_⟩
  have hlt : Token.isPunct '<' (.punct lt) = true := by simp [Token.isPunct, hwritten.start]
  rw [rawTextWithin_cons (checkStop_unlimited (hv.world ▸ hw)) hv.rest, hlt, hcloses]
  exact Returns.andThen (a := ()) rfl (hclosed.andThen rfl)

/-- The children of an element are read in a region of their own. -/
theorem children_of_content {ts us : List Token} {more : Text} {c : Option ClosingTag} (hraw : r.isRawText name = true)
    (h : s.Plain w text ts) (hcontent : ∀ v, State.Plain v w [] ts →
      ∃ u, u.Plain w more us ∧ Returns (r.rawTextWithin t name t.turns) v c u) :
    ∃ ns u, Node.Only more ns ∧ u.Plain w text us ∧ Returns (r.children t name) s (ns, c) u := by
  have hinside : s.inside.Plain w [] ts := ⟨.inl ⟨rfl, rfl⟩, h.rest, h.world, rfl, h.trimLine, h.broken⟩
  obtain ⟨u, hu, hread⟩ := hcontent _ hinside
  refine ⟨u.sink.reverse, { u with sink := s.sink, markup := s.markup, atStart := s.atStart }, hu.sink.reverse,
    ⟨h.sink, hu.rest, hu.world, h.markup, hu.trimLine, hu.broken⟩, ?_⟩
  have hcontent : r.content t name = r.rawTextWithin t name t.turns := by simp [content, hraw]
  rw [children_eq, hcontent]
  exact Returns.andThen (a := s) rfl (Returns.andThen (a := ()) rfl (hread.andThen rfl))

/-- A tag may end right behind its name. -/
theorem attributes_end {ts : List Token} {gt : Token} (hgt : gt.isPunct '>' = true) (hw : w.budget = none)
    (h : s.Plain w text (gt :: ts)) (lt : Option Position) (tag : Text) :
    ∃ u, u.Plain w text ts ∧ Returns (t.attributes lt tag) s ({}, ⟨none, gt.space, gt.pos⟩) u := by
  refine ⟨_, h.skip 1 gt.pos, ?_⟩
  rw [Token.eq_punct hgt] at h ⊢
  unfold Returns Tools.attributes
  rw [rest_bind, h.rest, List.length_cons]
  unfold Tools.attributesWithin
  rw [(checkStop_unlimited (h.world ▸ hw)).bind_eq, rest_bind, h.rest]
  rfl

theorem tagNodes_unhooked {c : TagContext} (h : r.tagHooks.filter (·.accepts c.name) = []) :
    r.tagNodes c = pure c.default := by
  unfold tagNodes
  rw [h]

theorem elementNodes_unhooked {c : ElementContext} (h : r.elementHooks.filter (·.accepts c.name) = []) :
    r.elementNodes c = pure c.default := by
  unfold elementNodes
  rw [h]

/-- Reads the children of an element and its closing tag, and adds the element with what it opens with. -/
def body (r : Registry) (t : Tools) (lt : Option Position) (name : Text) (opening : List Node) : ParseM Unit := do
  let (children, closing) ← r.children t name
  match closing with
  | none => fail lt (.openElement name)
  | some c =>
    if !Text.sameFold c.name name then fail c.pos (.mismatchedTag c.name name)
    emit (opening ++ children ++ [Node.tagEnd c.pos c.name c.tokens])

/-- Without hooks an element consists of its opening tag, its children and its closing tag. -/
theorem elementRest_unhooked {lt : Punct} {tokens : List Token} {reading : TagReading} {stop : TagEnd}
    (htags : r.tagHooks.filter (·.accepts (tagName tokens)) = [])
    (helements : r.elementHooks.filter (·.accepts (tagName tokens)) = [])
    (hvoid : r.isVoid (tagName tokens) = false) (hslash : stop.slash = none) :
    r.elementRest t lt tokens reading stop = r.body t lt.pos (tagName tokens)
      (Node.tagStart (tagName tokens) tokens :: reading.nodes.reverse ++ [.closeStart stop.pos stop.space]) := by
  unfold elementRest body
  dsimp only
  rw [tagNodes_unhooked htags, pure_bind, hvoid, hslash]
  simp only [Option.isSome_none, Bool.false_or, Bool.false_eq_true, if_false]
  refine congrArg (r.children t (tagName tokens) >>= ·) (funext fun found => ?_)
  obtain ⟨children, closing⟩ := found
  cases closing with
  | none => rfl
  | some c =>
    dsimp only
    rw [tagNodes_unhooked htags, pure_bind, elementNodes_unhooked helements, pure_bind]
    rfl

/-- An opening tag without attributes. -/
theorem element_opens {lt : Punct} {gt : Token} {ns ts : List Token}
    (htags : r.tagHooks.filter (·.accepts name) = []) (helements : r.elementHooks.filter (·.accepts name) = [])
    (hvoid : r.isVoid name = false) (hw : w.budget = none) (hname : tagName ns = name)
    (htokens : tagNameTokens (ns ++ gt :: ts) = ns) (hgt : gt.isPunct '>' = true)
    (h : s.Plain w text (.punct lt :: (ns ++ gt :: ts))) :
    ∃ u : State, u.Plain w text ts ∧
      r.element t lt s = r.body t lt.pos name [Node.tagStart name ns, .closeStart gt.pos gt.space] u := by
  obtain ⟨s₁, hskip, hs₁⟩ : ∃ s₁, Returns (skip 1) s () s₁ ∧ s₁.Plain w text (ns ++ gt :: ts) :=
    ⟨_, rfl, h.skip 1 s.last⟩
  have hrest : Returns rest s₁ (ns ++ gt :: ts) s₁ := by
    rw [← hs₁.rest]
    rfl
  obtain ⟨s₂, hskip', hs₂⟩ : ∃ s₂, Returns (skip ns.length) s₁ () s₂ ∧ s₂.Plain w text (gt :: ts) := by
    have hskipped := hs₁.skip ns.length s₁.last
    rw [List.drop_left] at hskipped
    exact ⟨_, rfl, hskipped⟩
  obtain ⟨u, hu, hattributes⟩ := attributes_end (t := t) hgt hw hs₂ lt.pos name
  have hopening : Returns (t.openingTag lt) s (ns, {}, ⟨none, gt.space, gt.pos⟩) u := by
    unfold Tools.openingTag
    refine hskip.andThen (hrest.andThen ?_)
    rw [htokens]
    dsimp only
    rw [hname]
    exact hskip'.andThen (hattributes.andThen rfl)
  subst hname
  refine ⟨u, hu, ?_⟩
  rw [element_eq, hopening.bind_eq]
  dsimp only
  rw [elementRest_unhooked htags helements hvoid rfl]
  rfl

/-- An element whose closing tag is recognised has its raw text as its only child. -/
theorem element_copied {lt lt' : Punct} {gt : Token} {ns closing : List Token} {c : ClosingTag}
    (hraw : r.isRawText name = true) (htags : r.tagHooks.filter (·.accepts name) = [])
    (helements : r.elementHooks.filter (·.accepts name) = []) (hvoid : r.isVoid name = false) (hw : w.budget = none)
    (hname : tagName ns = name) (htokens : tagNameTokens (ns ++ gt :: (ts ++ .punct lt' :: closing)) = ns)
    (hgt : gt.isPunct '>' = true) (hn : ts.length < t.turns) (hcopied : Token.isRaw name (.punct lt' :: closing) ts = true)
    (hcloses : closesRawText name closing = true) (hwritten : c.Written lt' closing) (hc : c.name = name)
    (h : s.Plain w [] (.punct lt :: (ns ++ gt :: (ts ++ .punct lt' :: closing)))) :
    ∃ ns' u, Node.Only (Token.sourceWithSpace ts ++ lt'.space) ns' ∧ Returns (r.element t lt) s () u ∧
      u.sink.reverse = [Node.tagStart name ns, .closeStart gt.pos gt.space] ++ ns' ++ [Node.tagEnd c.pos name c.tokens] ∧
      u.world = w ∧ u.stream.rest = [] ∧ u.broken = false := by
  obtain ⟨v, hv, helement⟩ := element_opens (t := t) htags helements hvoid hw hname htokens hgt h
  obtain ⟨ns', u, hns', hu, hchildren⟩ := children_of_content hraw hv fun v hv =>
    rawText_closes (t := t) hw hn hcopied hcloses hwritten hv
  generalize hnodes : [Node.tagStart name ns, .closeStart gt.pos gt.space] ++ ns' ++ [Node.tagEnd c.pos name c.tokens] =
    nodes
  have happart : Node.TextsApart nodes := by
    rw [← hnodes]
    rcases hns' with ⟨-, rfl⟩ | ⟨htext, pos, rfl⟩
    · exact ⟨by simp, by simp [Node.isText]⟩
    · exact ⟨by simpa using htext, by simp [Node.isText]⟩
  have hsink : (nodes.foldl State.push u).sink = nodes.reverse ++ u.sink := by
    refine State.foldl_push_apart happart fun n hn htext => ?_
    rw [← hnodes] at hn
    obtain rfl := Option.mem_some_iff.mp hn
    cases htext
  obtain ⟨_, _, hframe⟩ := State.foldl_push_frame nodes u
  have hempty : u.sink = [] := by
    rcases hu.sink with ⟨-, hempty⟩ | ⟨hne, -⟩
    · exact hempty
    · exact (hne rfl).elim
  refine ⟨ns', nodes.foldl State.push u, hns', ?_, ?_, ?_⟩
  · unfold Returns
    rw [helement, body, hchildren.bind_eq]
    dsimp only
    rw [hc, Text.sameFold_self, hnodes]
    rfl
  · rw [hsink, hempty, List.append_nil, List.reverse_reverse, ← hnodes]
  · rw [hframe]
    exact ⟨hu.world, hu.rest, hu.broken⟩

/-- An element whose closing tag is not recognised is left open. -/
theorem element_open {lt : Punct} {gt : Token} {ns : List Token}
    (hraw : r.isRawText name = true) (htags : r.tagHooks.filter (·.accepts name) = [])
    (helements : r.elementHooks.filter (·.accepts name) = []) (hvoid : r.isVoid name = false) (hw : w.budget = none)
    (hname : tagName ns = name) (htokens : tagNameTokens (ns ++ gt :: ts) = ns)
    (hgt : gt.isPunct '>' = true) (hn : ts.length < t.turns) (hcopied : Token.isRaw name [] ts = true)
    (h : s.Plain w [] (.punct lt :: (ns ++ gt :: ts))) :
    ∃ u, u.world = w ∧ r.element t lt s = .error (Error.at? lt.pos (.openElement name)) u := by
  obtain ⟨v, hv, helement⟩ := element_opens (t := t) htags helements hvoid hw hname htokens hgt h
  obtain ⟨ns', u, -, hu, hchildren⟩ := children_of_content hraw hv fun v hv => rawText_ends (t := t) hw hn hcopied hv
  refine ⟨u, hu.world, ?_⟩
  rw [helement, body, hchildren.bind_eq]
  rfl

theorem gluedMarks_append {gt : Token} (hgt : gt.isPunct '>' = true) {cs : List Char} (hcs : '>' ∉ cs)
    (ts us : List Token) : gluedMarks cs (ts ++ gt :: us) = gluedMarks cs ts := by
  induction cs generalizing ts with
  | nil => cases ts <;> rfl
  | cons c cs ih =>
    cases ts with
    | nil =>
      have hc : '>' ≠ c := fun hc => hcs (hc ▸ .head _)
      rw [Token.eq_punct hgt]
      simp [gluedMarks, Token.isPunct, hc]
    | cons t ts => simp only [List.cons_append, gluedMarks, ih (fun hmem => hcs (.tail _ hmem))]

/-- A turn at the beginning of an element reads the element. -/
theorem turn_element {lt : Punct} {ts : List Token} (hb : s.world.budget = none) (hmarkup : s.markup = true)
    (hrest : s.stream.rest = .punct lt :: ts) (hlt : lt.char = '<')
    (hstarts : ts.head?.any (fun n => n.glued && n.startsTagName) = true)
    (hmarks : gluedMarks ['!', '-', '-'] ts = false) :
    r.turn t s = (do
      r.element t lt
      goOn t) ({ s with last := lt.pos }.pushText lt.pos lt.space) := by
  obtain ⟨n, ts, rfl, hn, hfirst⟩ : ∃ n ts', ts = n :: ts' ∧ n.glued = true ∧ n.startsTagName = true := by
    cases ts with
    | nil => cases hstarts
    | cons n ts =>
      obtain ⟨hn, hfirst⟩ : n.glued = true ∧ n.startsTagName = true := by simpa using hstarts
      exact ⟨n, ts, rfl, hn, hfirst⟩
  have hslash : n.isPunct '/' = false :=
    Token.isPunct_of_continues (Token.continuesTagName_of_starts hfirst) (by decide)
  have hcomment : startsWithMarks ['<', '!', '-', '-'] (.punct lt :: n :: ts) = false := by
    rw [startsWithMarks, hmarks, Bool.and_false]
  have hentry (v : State) (hv : v.markup = true) : r.tagEntry t lt (n :: ts) v = (do
      r.element t lt
      return none) (v.pushText lt.pos lt.space) := by
    unfold tagEntry
    rw [get_bind, hcomment, hv]
    simp only [List.head?_cons, Option.filter_some, hn, if_true, Option.any_some, hslash, Bool.false_and,
      Bool.false_eq_true, if_false, hfirst]
    exact emitText_bind v _ _ _
  have haction (statement : Bool) : Token.action s.markup statement (.punct lt) = .tag lt := by
    simp [Token.action, hlt, hmarkup]
  rw [turn_cons r t hb hrest, haction]
  unfold act
  simp only [Bind.bind, EStateM.bind, Token.pos]
  rw [hentry { s with last := lt.pos } hmarkup]
  simp only [Bind.bind, EStateM.bind]
  cases r.element t lt (({ s with last := lt.pos } : State).pushText lt.pos lt.space) <;> rfl

theorem turn_plainElement {lt : Punct} {gt : Token} {ns ts : List Token} (hw : w.budget = none) (hlt : lt.char = '<')
    (hgt : gt.isPunct '>' = true) (hstarts : ns.head?.any (fun n => n.glued && n.startsTagName) = true)
    (hmarks : gluedMarks ['!', '-', '-'] ns = false) (h : s.Plain w text (.punct lt :: (ns ++ gt :: ts))) :
    ∃ u : State, u.Plain w (text ++ lt.space) (.punct lt :: (ns ++ gt :: ts)) ∧
      r.turn t s = (do
        r.element t lt
        goOn t) u := by
  refine ⟨_, (h.setLast lt.pos).pushText lt.pos lt.space, turn_element (h.world ▸ hw) h.markup h.rest hlt ?_ ?_⟩
  · cases ns with
    | nil => cases hstarts
    | cons => exact hstarts
  · rw [gluedMarks_append hgt (by decide), hmarks]

section
variable {p q p' q' e : Option Position} {left : Text} {ns ns' : List Token} {n : Nat}
variable (settings : Settings) (embed : Text → Text → ParseM Fragment)
variable (hraw : r.isRawText name = true) (htags : r.tagHooks.filter (·.accepts name) = [])
  (helements : r.elementHooks.filter (·.accepts name) = []) (hvoid : r.isVoid name = false) (hw : w.budget = none)
include hraw htags helements hvoid hw

/-- The loop reads an element whose closing tag is recognised. -/
theorem loop_copied (hname : Token.SpellsName name ns) (hname' : Token.SpellsName name ns') (hn : ts.length < n)
    (hcopied : Token.isRaw name (.punct ⟨p', left, '<'⟩ :: .mark q' '/' :: (ns' ++ [.mark e '>'])) ts = true)
    (hcloses : closesRawText name (.mark q' '/' :: (ns' ++ [.mark e '>'])) = true)
    (h : s.Plain w [] (.mark p '<' :: (ns ++ .mark q '>' :: (ts ++ .punct ⟨p', left, '<'⟩ :: .mark q' '/' ::
      (ns' ++ [.mark e '>']))))) :
    ∃ inner u, Node.Only (Token.sourceWithSpace ts ++ left) inner ∧ r.loop settings embed (n + 1) s = .ok none u ∧
      u.sink.reverse = [Node.tagStart name ns, .closeStart q []] ++ inner ++ [Node.tagEnd p' name ns'] ∧
      u.world = w := by
  obtain ⟨v, hv, hturn⟩ := turn_plainElement (r := r) (t := r.tools settings embed n) hw rfl rfl
    (hname.written p q e []).first hname.element h
  obtain ⟨inner, u, hinner, helement, hsink, hworld, hrest, hbroken⟩ := element_copied (t := r.tools settings embed n)
    hraw htags helements hvoid hw hname.spelled (hname.tokens q _) rfl hn hcopied hcloses
    (hname'.written p' q' e left) rfl hv
  refine ⟨inner, u, hinner, hturn.trans ?_, hsink, hworld⟩
  rw [helement.bind_eq, goOn_unbroken hbroken]
  obtain ⟨k, rfl⟩ : ∃ k, n = k + 1 := ⟨n - 1, by omega⟩
  exact turn_nil r _ (hworld ▸ hw) hrest

/-- The loop fails at an element whose closing tag is not recognised. -/
theorem loop_open (hname : Token.SpellsName name ns) (hn : ts.length < n) (hcopied : Token.isRaw name [] ts = true)
    (h : s.Plain w [] (.mark p '<' :: (ns ++ .mark q '>' :: ts))) :
    ∃ u, u.world = w ∧ r.loop settings embed (n + 1) s = .error (Error.at? p (.openElement name)) u := by
  obtain ⟨v, hv, hturn⟩ := turn_plainElement (r := r) (t := r.tools settings embed n) hw rfl rfl
    (hname.written p q q []).first hname.element h
  obtain ⟨u, hworld, helement⟩ := element_open (t := r.tools settings embed n) hraw htags helements hvoid hw
    hname.spelled (hname.tokens q _) rfl hn hcopied hv
  refine ⟨u, hworld, hturn.trans ?_⟩
  simp only [bind, EStateM.bind, helement]

end
end Registry

namespace Template

/-- An element with raw text in a source of its own, if no token of its content is a marker or starts its closing tag.
Its name is one of those set for raw text, in a registry without hooks for it. If the name is one token, the element
has its content as its only text. If it is more tokens, the element counts as open, since the one token that is looked
at behind `</` is never the name. -/
theorem parse_rawElement (r : Registry) (settings : Settings) (path : Text) (names : List Text)
    {name content left : Text} {ns cs : List Token} {w : World} (hmem : name ∈ names) (hname : Token.Names name ns)
    (htags : r.tagHooks.filter (·.accepts name) = []) (helements : r.elementHooks.filter (·.accepts name) = [])
    (hvoid : r.isVoid name = false) (hcontent : Token.lex content = .ok (cs, left))
    (hmark : Lexeme.unmarked content = content) (hcopied : Token.isRaw name [] cs = true) (hw : w.budget = none) :
    (ns.length = 1 → ∃ t first last close stop inner,
      parse (r.setRawTextTags names) settings path
        (utf8 "<" ++ name ++ utf8 ">" ++ content ++ utf8 "</" ++ name ++ utf8 ">") w = .ok t w ∧
      t.nodes = [Node.tagStart name first, .closeStart close []] ++ inner ++ [Node.tagEnd stop name last] ∧
      Node.Only content inner) ∧
    (1 < ns.length → ∃ pos,
      parse (r.setRawTextTags names) settings path
        (utf8 "<" ++ name ++ utf8 ">" ++ content ++ utf8 "</" ++ name ++ utf8 ">") w =
        .error (.fault path pos (.openElement name)) w) := by
  obtain ⟨all, hlex, hsame⟩ := Token.lex_element hname hcontent hmark
  obtain ⟨p, q, p', q', e, first, last, ds, hall, hfirst, hds, hlast⟩ := Token.exists_element hsame
  have hraw := r.isRawText_setRawTextTags hmem
  have hspells := hname.toSpellsName.of_unplaced hfirst
  have hspells' := hname.toSpellsName.of_unplaced hlast
  have hsource : Token.sourceWithSpace ds ++ left = content := by
    rw [← Token.sourceWithSpace_unplacedAll, hds, Token.sourceWithSpace_unplacedAll, Token.lex_unmarked hcontent, hmark]
  have hbefore : Token.isRaw name (.punct ⟨p', left, '<'⟩ :: .mark q' '/' :: (last ++ [.mark e '>'])) ds = true := by
    refine Token.isRaw_before hname.sameFold_less rfl _ ?_
    rw [Token.isRaw_unplacedAll name [] hds, hcopied]
  obtain ⟨n, hn⟩ : ∃ n, includeBound settings = n + 1 := ⟨_, rfl⟩
  obtain ⟨k, hk, hlength⟩ : ∃ k, (r.setRawTextTags names).turns w all = k + 1 ∧
      (ds ++ Token.punct ⟨p', left, '<'⟩ :: .mark q' '/' :: (last ++ [.mark e '>'])).length < k := by
    have hturns := (r.setRawTextTags names).weights_lt_turns w all
    have hweights := Token.length_le_weights all
    have hlength := congrArg List.length hall
    simp only [List.length_cons, List.length_append] at hlength ⊢
    exact ⟨(r.setRawTextTags names).turns w all - 1, by omega, by omega⟩
  have hstart : State.Plain { world := w, path, includers := [], stream := .ofTokens all } w [] (.mark p '<' :: (first ++
      .mark q '>' :: (ds ++ .punct ⟨p', left, '<'⟩ :: .mark q' '/' :: (last ++ [.mark e '>'])))) :=
    ⟨.inl ⟨rfl, rfl⟩, hall, rfl, rfl, rfl, rfl⟩
  constructor
  · intro hone
    have hone' := congrArg List.length hlast
    rw [Token.length_unplacedAll, Token.length_unplacedAll, hone] at hone'
    have hfew : ds.length < k := by
      rw [List.length_append] at hlength
      omega
    obtain ⟨inner, u, hinner, hloop, hsink, hworld⟩ := Registry.loop_copied settings
      ((r.setRawTextTags names).embedIn settings n [] path) hraw htags helements hvoid hw hspells hspells' hfew hbefore
      (Registry.closesRawText_one hspells' hone' q' _) hstart
    rw [← hk] at hloop
    obtain ⟨t, hparse, hnodes⟩ := parse_of_loop hlex hw hworld hn hloop
    refine ⟨t, first, last, q, p', inner, hparse, ?_, hsource ▸ hinner⟩
    rw [hnodes, State.pushText_nil, hsink]
  · intro hmore
    have hopen : Token.isRaw name [] (ds ++ Token.punct ⟨p', left, '<'⟩ :: .mark q' '/' ::
        (last ++ [.mark e '>'])) = true := by
      rw [Token.isRaw_append, List.append_nil, hbefore, Registry.isRaw_closing hname hlast hmore p' q' e left]
      rfl
    obtain ⟨u, hworld, hloop⟩ := Registry.loop_open settings ((r.setRawTextTags names).embedIn settings n [] path) hraw
      htags helements hvoid hw hspells hlength hopen hstart
    rw [← hk] at hloop
    exact ⟨_, parse_of_loop_error hlex hw hworld hn hloop⟩

/-- The tokens of a source, if they pass a check. -/
theorem exists_lex_of_any {src : Text} (check : List Token × Text → Bool)
    (h : (Token.lex src).toOption.any check = true) : ∃ ts left, Token.lex src = .ok (ts, left) ∧ check (ts, left) = true := by
  cases hlex : Token.lex src with
  | error e =>
    rw [hlex] at h
    cases h
  | ok found => exact ⟨found.1, found.2, rfl, by simpa [hlex, Except.toOption] using h⟩

/-- The tokens of a tag name, if they pass its checks. -/
theorem exists_names {name : Text} {n : Nat} (h : (Token.lex name).toOption.any (fun found => found.2.isEmpty &&
    decide (tagName found.1 = name) && found.1.head?.any Token.startsTagName &&
    found.1.all (fun t => t.glued && t.continuesTagName) && !gluedMarks ['!', '-', '-'] found.1 &&
    decide (found.1.length = n)) = true) : ∃ ns, Token.Names name ns ∧ ns.length = n := by
  obtain ⟨ns, left, hlex, hcheck⟩ := exists_lex_of_any _ h
  simp only [Bool.and_eq_true, decide_eq_true_eq, Bool.not_eq_true', List.all_eq_true, List.isEmpty_iff] at hcheck
  obtain ⟨⟨⟨⟨⟨rfl, hspelled⟩, hstarts⟩, hcontinues⟩, helement⟩, hlength⟩ := hcheck
  exact ⟨ns, ⟨⟨hspelled, hstarts, hcontinues, helement⟩, hlex⟩, hlength⟩

/-- A name of one token, and one that goes on with a dash. The content holds another closing tag, a stray `</` and a
group with a marker. -/
theorem parse_rawElement_names : ∃ ns ns' cs left, Token.Names (utf8 "tpl") ns ∧ ns.length = 1 ∧
    Token.Names (utf8 "x-y") ns' ∧ 1 < ns'.length ∧ Token.lex (utf8 "</b> </ (@c)\n") = .ok (cs, left) ∧
    Token.isRaw (utf8 "tpl") [] cs = true ∧ Token.isRaw (utf8 "x-y") [] cs = true ∧ ({} : World).budget = none ∧
    (∃ t first last close stop inner,
      parse (Registry.standard.setRawTextTags [utf8 "x-y", utf8 "tpl"]) { markdown := .ok } (utf8 "index.rhtml")
        (utf8 "<tpl></b> </ (@c)\n</tpl>") {} = .ok t {} ∧
      t.nodes = [Node.tagStart (utf8 "tpl") first, .closeStart close []] ++ inner ++
        [Node.tagEnd stop (utf8 "tpl") last] ∧
      Node.Only (utf8 "</b> </ (@c)\n") inner) ∧
    ∃ pos, parse (Registry.standard.setRawTextTags [utf8 "x-y", utf8 "tpl"]) { markdown := .ok } (utf8 "index.rhtml")
      (utf8 "<x-y></b> </ (@c)\n</x-y>") {} = .error (.fault (utf8 "index.rhtml") pos (.openElement (utf8 "x-y"))) {} := by
  obtain ⟨ns, hname, hone⟩ : ∃ ns, Token.Names (utf8 "tpl") ns ∧ ns.length = 1 := exists_names (by decide +kernel)
  obtain ⟨ns', hname', hmore⟩ : ∃ ns, Token.Names (utf8 "x-y") ns ∧ ns.length = 3 := exists_names (by decide +kernel)
  obtain ⟨cs, left, hlex, hcheck⟩ : ∃ cs left, Token.lex (utf8 "</b> </ (@c)\n") = .ok (cs, left) ∧
      (Token.isRaw (utf8 "tpl") [] cs && Token.isRaw (utf8 "x-y") [] cs) = true :=
    exists_lex_of_any (fun found => Token.isRaw (utf8 "tpl") [] found.1 && Token.isRaw (utf8 "x-y") [] found.1)
      (by decide +kernel)
  obtain ⟨hraw, hraw'⟩ := Bool.and_eq_true_iff.mp hcheck
  have hvoid : Registry.standard.isVoid (utf8 "tpl") = false ∧ Registry.standard.isVoid (utf8 "x-y") = false := by
    rw [Registry.standard_eq]
    decide +kernel
  obtain ⟨t, first, last, close, stop, inner, hparse, hnodes, honly⟩ := (parse_rawElement Registry.standard
    { markdown := .ok } (utf8 "index.rhtml") [utf8 "x-y", utf8 "tpl"] (by simp) hname rfl rfl hvoid.1 hlex rfl
    hraw (w := {}) rfl).1 hone
  obtain ⟨pos, herror⟩ := (parse_rawElement Registry.standard
    { markdown := .ok } (utf8 "index.rhtml") [utf8 "x-y", utf8 "tpl"] (by simp) hname' rfl rfl hvoid.2 hlex rfl
    hraw' (w := {}) rfl).2 (by omega)
  exact ⟨ns, ns', cs, left, hname, hone, hname', by omega, hlex, hraw, hraw', rfl,
    ⟨t, first, last, close, stop, inner, hparse, hnodes, honly⟩, pos, herror⟩

end Template
end Atmark
