import Atmark.Proofs.Token.Unplaced
import Atmark.Proofs.Token.Balanced

/-! Sources side by side. A reading stays the same when what is left of it goes on in another way, as long as that
starts with white space or a delimiter and closes no character literal (`Item.Reads.resume`). So a source that
ends with a line break is read in the same way before any other source (`Token.lex_append`), and any source is
read in the same way between parentheses (`Token.lex_enclosed`); where the tokens stand is all that changes. -/
namespace Atmark

namespace Shape

/-- An ASCII byte that goes on no number and no word. -/
def Halts (b : UInt8) : Prop := isNumberByte b = false ∧ isSign b = false ∧ b ≠ 0x2E ∧ isDecimal b = false ∧
  b.toNat < 0x80 ∧ Text.isWordChar (Char.ofNat b.toNat) = false

instance : DecidablePred Halts := fun _ => inferInstanceAs (Decidable (_ ∧ _ ∧ _ ∧ _ ∧ _ ∧ _))

/-- A text goes on where another one did: it is empty or starts with a byte that goes on no number and no word, and it
closes no character literal that the other one does not. -/
structure Resumes (left left' : Text) : Prop where
  halts : ∀ b r, left' = b :: r → Halts b
  quote : ∀ before body after, RuneBody body → before ++ left' = body ++ 0x27 :: after →
    ∃ after', before ++ left = body ++ 0x27 :: after'

/-- White space and delimiters go on no number and no word. -/
theorem halts_of_boundary {b : UInt8} (h : isLeafByte b = false) : Halts b := by
  have hall : ∀ n : Fin 256, isLeafByte (UInt8.ofNat n.val) = false → Halts (UInt8.ofNat n.val) := by decide +kernel
  simpa using hall ⟨b.toNat, b.toNat_lt⟩ (by simpa using h)

section Halts
variable {left left' t : Text} (h : ∀ b r, left' = b :: r → Halts b)
include h

theorem not_startsDigit_of_halts (ht : ¬StartsDigit (t ++ left)) : ¬StartsDigit (t ++ left') := by
  rintro ⟨b, r, hb, hdigit⟩
  cases t with
  | nil =>
    obtain ⟨-, -, -, hhalts, -⟩ := h b r hb
    rw [hhalts] at hdigit
    cases hdigit
  | cons c t =>
    obtain ⟨rfl, -⟩ := List.cons.inj hb
    exact ht ⟨c, t ++ left, rfl, hdigit⟩

theorem Run.resume {hex : Bool} {raw : Text} (hrun : Run hex raw (t ++ left)) : Run hex raw (t ++ left') where
  continues := hrun.continues
  ends b after hb := by
    cases t with
    | nil =>
      obtain ⟨hnumber, hsign, -⟩ := h b after hb
      simp [Continues, hnumber, hsign]
    | cons c t =>
      obtain ⟨rfl, -⟩ := List.cons.inj hb
      exact hrun.ends c (t ++ left) rfl

theorem Number.resume {kind : LiteralKind} {raw : Text} (hnumber : Number kind raw (t ++ left)) :
    Number kind raw (t ++ left') := by
  cases hnumber with
  | whole hdigit hrun hpoint =>
    refine .whole hdigit (hrun.resume h) fun after hafter => ?_
    cases t with
    | nil =>
      obtain ⟨-, -, hhalts, -⟩ := h _ _ hafter
      exact (hhalts rfl).elim
    | cons c t =>
      obtain ⟨rfl, rfl⟩ := List.cons.inj hafter
      exact not_startsDigit_of_halts h (hpoint (t ++ left) rfl)
  | point hdigit hdigit' hrun hrun' => exact .point hdigit hdigit' hrun (hrun'.resume h)

theorem endsWord_of_halts (hword : EndsWord (t ++ left)) : EndsWord (t ++ left') := by
  intro d after hd
  rcases List.append_eq_append_iff.mp hd with ⟨c, hc, hleft⟩ | ⟨c, rfl, -⟩
  · cases c with
    | nil => exact hword d left (by rw [hc, List.append_nil])
    | cons b c =>
      -- The character would have a byte that stands for itself alone.
      obtain ⟨-, -, -, -, hascii, hchar⟩ := h b _ hleft
      obtain ⟨hd', -⟩ := Text.encode_of_mem_ascii (c := d) hascii (by rw [hc]; simp)
      rwa [← hd', Char.ofNat_toNat] at hchar
  · exact hword d (c ++ left) (by simp)

/-- A leaf ends at the same place, a quote if no character literal starts there now. -/
theorem Leaf.resume {s : Shape} {raw : Text} (hleaf : Leaf s raw (t ++ left))
    (hquote : s = .punct '\'' → ∀ body after, RuneBody body → t ++ left' ≠ body ++ 0x27 :: after) :
    Leaf s raw (t ++ left') := by
  cases hleaf with
  | string hbody => exact .string hbody
  | rawString hbody => exact .rawString hbody
  | rune hbody => exact .rune hbody
  | number hnumber => exact .number (hnumber.resume h)
  | ident hc hcs hword => exact .ident hc hcs (endsWord_of_halts h hword)
  | punct hstart hunder hletter hmark => exact .punct hstart hunder hletter hmark fun hc => hquote (hc ▸ rfl)

end Halts

/-- A leaf ends at the same place. -/
theorem Resumes.leaf {left left' t : Text} (h : Resumes left left') {s : Shape} {raw : Text}
    (hleaf : Leaf s raw (t ++ left)) : Leaf s raw (t ++ left') := by
  refine hleaf.resume h.halts ?_
  rintro rfl body after hbody hafter
  obtain ⟨after', hafter'⟩ := h.quote t body after hbody hafter
  generalize hrest : t ++ left = rest at hleaf hafter'
  generalize hs : Shape.punct '\'' = s at hleaf
  cases hleaf with
  | punct _ _ _ _ hquote =>
    obtain rfl := Shape.punct.inj hs
    exact hquote rfl body after' hbody hafter'
  | _ => cases hs

/-- What may stand in a character literal has no line break. -/
theorem RuneBody.not_mem_newline {body : Text} (h : RuneBody body) : (0x0A : UInt8) ∉ body := by
  cases h with
  | @char c _ hbreak _ =>
    intro hmem
    obtain ⟨hc, -⟩ := Text.encode_of_mem_ascii (c := c) (x := 0x0A) (by decide) hmem
    exact hbreak (Char.toNat_inj.mp hc)
  | @stray b hb =>
    intro hmem
    obtain rfl := List.mem_singleton.mp hmem
    exact absurd hb (by decide)
  | @escape b t hb ht _ =>
    simp only [List.mem_cons, not_or]
    exact ⟨by decide, hb.symm, fun hmem => (ht _ hmem).2 rfl⟩

/-- Anything may stand after a line break. -/
theorem resumes_append {left : Text} (hleft : Item.Blank left) (hend : left.getLast? = some 0x0A) (t : Text) :
    Resumes left (left ++ t) where
  halts b r hb := by
    cases left with
    | nil => cases hend
    | cons c left =>
      obtain ⟨rfl, -⟩ := List.cons.inj hb
      exact halts_of_boundary (by simp [isLeafByte, hleft c (.head _)])
  quote before body after hbody h := by
    rw [← List.append_assoc] at h
    obtain ⟨before', hbefore⟩ := List.getLast?_eq_some_iff.mp hend
    rcases List.append_eq_append_iff.mp h with ⟨c, hc, -⟩ | ⟨c, hc, hafter⟩
    · exact (hbody.not_mem_newline (by rw [hc, hbefore]; simp)).elim
    · cases c with
      | nil =>
        rw [List.append_nil] at hc
        exact (hbody.not_mem_newline (by rw [← hc, hbefore]; simp)).elim
      | cons b c =>
        obtain ⟨rfl, -⟩ := List.cons.inj hafter
        exact ⟨c, hc⟩

/-- A text without quotes closes no character literal. -/
theorem resumes_of_not_mem {left left' : Text} (hhalts : ∀ b r, left' = b :: r → Halts b)
    (hquote : (0x27 : UInt8) ∉ left') : Resumes left left' where
  halts := hhalts
  quote before body after _ h := by
    rcases List.append_eq_append_iff.mp h with ⟨c, -, hc⟩ | ⟨c, rfl, hc⟩
    · exact (hquote (by rw [hc]; simp)).elim
    · cases c with
      | nil => exact (hquote (by rw [← List.nil_append left', ← hc]; simp)).elim
      | cons b c =>
        obtain ⟨rfl, -⟩ := List.cons.inj hc
        exact ⟨c ++ left, by simp⟩

/-- No leaf ends with a line break. -/
theorem Leaf.getLast?_ne {s : Shape} {raw rest : Text} (h : Leaf s raw rest) : raw.getLast? ≠ some 0x0A := by
  have hquoted (q : UInt8) (body : Text) (hq : q ≠ 0x0A) : (q :: (body ++ [q])).getLast? ≠ some 0x0A := by
    rw [← List.cons_append, List.getLast?_concat]
    simpa using hq
  have hrun {hex : Bool} {run : Text} {after : Text} (hrun : Run hex run after) : run.getLast? ≠ some 0x0A := by
    intro hlast
    obtain ⟨before, rfl⟩ := List.getLast?_eq_some_iff.mp hlast
    have hcontinues := hrun.continues before 0x0A [] rfl
    simp [Continues, isNumberByte, isSign] at hcontinues
  have hchar {c : Char} (hc : c ≠ '\n') : (String.utf8EncodeChar c).getLast? ≠ some 0x0A := by
    intro hlast
    obtain ⟨hcode, -⟩ := Text.encode_of_mem_ascii (c := c) (x := 0x0A) (by decide) (List.mem_of_getLast? hlast)
    exact hc (Char.toNat_inj.mp hcode)
  cases h with
  | string => exact hquoted _ _ (by decide)
  | rawString => exact hquoted _ _ (by decide)
  | rune => exact hquoted _ _ (by decide)
  | number hnumber =>
    cases hnumber with
    | whole _ hrun' _ => exact hrun hrun'
    | @point whole part _ _ hdigit _ hrun' =>
      rw [List.getLast?_append_of_ne_nil _ (by simp), List.getLast?_cons_of_ne_nil hdigit.ne_nil]
      exact hrun hrun'
  | @ident c cs _ hc hcs =>
    have hword : ∀ d ∈ c :: cs, d ≠ '\n' := by
      rintro d hd rfl
      rcases List.mem_cons.mp hd with rfl | hd
      · rcases hc with hc | hc
        · cases hc
        · revert hc
          decide +kernel
      · have := hcs _ hd
        revert this
        decide +kernel
    obtain ⟨before, d, hlast⟩ : ∃ before d, c :: cs = before ++ [d] := ⟨_, _, (List.dropLast_append_getLast (by simp)).symm⟩
    rw [hlast] at hword ⊢
    rw [Text.ofRunes, List.flatMap_append, List.flatMap_singleton,
      List.getLast?_append_of_ne_nil _ String.utf8EncodeChar_ne_nil]
    exact hchar (hword d (by simp))
  | punct hstart =>
    refine hchar ?_
    rintro rfl
    exact hstart (by decide)

end Shape

/-! ## Readings -/

namespace Item.Reads
variable {t left : Text} {is js : List Item}

/-- A reading stays the same when what is left of it is another text after which its leaves still end where they
did. -/
theorem resume_of (h : Reads t is left) : ∃ read, t = read ++ left ∧ ∀ left',
    (∀ space s raw u, .leaf space s raw ∈ is → Shape.Leaf s raw (u ++ left) → Shape.Leaf s raw (u ++ left')) →
    Reads (read ++ left') is left' := by
  induction h with
  | @nil t => exact ⟨[], rfl, fun _ _ => .nil⟩
  | @opening space t left d is hspace hd _ ih =>
    obtain ⟨read, rfl, hread⟩ := ih
    refine ⟨space ++ d.opening ++ read, by simp, fun left' h => ?_⟩
    rw [List.append_assoc]
    exact .opening hspace hd (hread left' fun space s raw u hmem => h space s raw u (.tail _ hmem))
  | @closing space t left d is hspace hd _ ih =>
    obtain ⟨read, rfl, hread⟩ := ih
    refine ⟨space ++ d.closing ++ read, by simp, fun left' h => ?_⟩
    rw [List.append_assoc]
    exact .closing hspace hd (hread left' fun space s raw u hmem => h space s raw u (.tail _ hmem))
  | @leaf space raw t left s is hspace hleaf _ ih =>
    obtain ⟨read, rfl, hread⟩ := ih
    refine ⟨space ++ raw ++ read, by simp, fun left' h => ?_⟩
    rw [List.append_assoc]
    exact .leaf hspace (h space s raw read (.head _) hleaf)
      (hread left' fun space s raw u hmem => h space s raw u (.tail _ hmem))

/-- A reading stays the same when what is left of it is another text. -/
theorem resume (h : Reads t is left) : ∃ read, t = read ++ left ∧
    ∀ left', Shape.Resumes left left' → Reads (read ++ left') is left' := by
  obtain ⟨read, hread, hresume⟩ := h.resume_of
  exact ⟨read, hread, fun left' hleft => hresume left' fun _ _ _ _ _ hleaf => hleft.leaf hleaf⟩

/-- Without quotes that stand for themselves it does not matter which quotes come next. -/
theorem resume_unquoted (h : Reads t is left) (hquote : ∀ space raw, .leaf space (.punct '\'') raw ∉ is) :
    ∃ read, t = read ++ left ∧
      ∀ left', (∀ b r, left' = b :: r → Shape.Halts b) → Reads (read ++ left') is left' := by
  obtain ⟨read, hread, hresume⟩ := h.resume_of
  refine ⟨read, hread, fun left' hhalts => hresume left' fun space s raw u hmem hleaf => ?_⟩
  refine hleaf.resume hhalts ?_
  rintro rfl
  exact (hquote space raw hmem).elim

/-- A text that is read up to its end does not end with a line break. -/
theorem getLast?_ne (h : Reads t is []) : t.getLast? ≠ some 0x0A := by
  generalize hleft : ([] : Text) = left at h
  have hdelim (d : Delimiter) : d.opening.getLast? ≠ some 0x0A ∧ d.closing.getLast? ≠ some 0x0A := by
    cases d <;> decide
  -- The last byte is that of what is left of the text, or of the last item.
  have hlast {space own t : Text} (ht : t.getLast? ≠ some 0x0A) (hown : own ≠ []) (h : own.getLast? ≠ some 0x0A) :
      (space ++ own ++ t).getLast? ≠ some 0x0A := by
    rw [List.getLast?_append, List.getLast?_append_of_ne_nil _ hown]
    cases hb : t.getLast? with
    | none => exact h
    | some b =>
      rw [hb] at ht
      exact ht
  induction h with
  | nil => simp [← hleft]
  | opening _ hd _ ih => exact hlast (ih hleft) (by cases ‹Delimiter› <;> simp_all [Delimiter.opening]) (hdelim _).1
  | closing _ hd _ ih => exact hlast (ih hleft) (by cases ‹Delimiter› <;> simp_all [Delimiter.closing]) (hdelim _).2
  | leaf _ hleaf _ ih =>
    obtain ⟨b, r, -, hs, -⟩ := Shape.ofText_of_leaf hleaf
    refine hlast (ih hleft) ?_ hleaf.getLast?_ne
    rintro rfl
    exact absurd (Shape.ofText_spells hs).1 (by simp)

theorem append {u : Text} (h : Reads t is u) (h' : Reads u js left) : Reads t (is ++ js) left := by
  induction h with
  | nil => exact h'
  | opening hspace hd _ ih => exact .opening hspace hd (ih h')
  | closing hspace hd _ ih => exact .closing hspace hd (ih h')
  | leaf hspace hleaf _ ih => exact .leaf hspace hleaf (ih h')

end Item.Reads

/-! ## Tokens of a reading -/

namespace Token

/-- The tokens after white space: it comes before the white space of the first one. -/
def after (space : Text) : List Token → List Token
  | [] => []
  | t :: ts => t.withSpace (space ++ t.space) :: ts

theorem reads_after {space t left : Text} {ts : List Token} (hspace : Item.Blank space) (hts : ts ≠ [])
    (h : Item.Reads t (flatten ts) left) : Item.Reads (space ++ t) (flatten (after space ts)) left := by
  have hblank {own : Text} (hown : Item.Blank own) : Item.Blank (space ++ own) := by
    intro b hb
    rcases List.mem_append.mp hb with hb | hb
    · exact hspace b hb
    · exact hown b hb
  cases ts with
  | nil => exact (hts rfl).elim
  | cons tok ts =>
    cases tok with
    | group f cs =>
      cases h with
      | opening hown hd h =>
        rw [List.append_assoc, ← List.append_assoc space, ← List.append_assoc]
        exact .opening (hblank hown) hd h
    | ident | literal | punct =>
      cases h with
      | leaf hown hleaf h =>
        rw [List.append_assoc, ← List.append_assoc space, ← List.append_assoc]
        exact .leaf (hblank hown) hleaf h

mutual

/-- The items of the tokens up to a closing delimiter that is not among them, or up to the end, show which tokens
they are. -/
theorem unplacedAll_of_flatten : (ts us : List Token) → {is js : List Item} →
    (∀ i ∈ is.head?, ∃ space d, i = .closing space d) → (∀ i ∈ js.head?, ∃ space d, i = .closing space d) →
    flatten ts ++ is = flatten us ++ js → unplacedAll ts = unplacedAll us ∧ is = js
  | [], [], _, _, _, _, h => ⟨rfl, h⟩
  | [], u :: us, is, js, his, _, h => by
    subst h
    cases u with
    | group f cs =>
      obtain ⟨_, _, hi⟩ := his (.opening f.space f.delim) rfl
      cases hi
    | ident t | literal t | punct t =>
      obtain ⟨_, _, hi⟩ := his (.leaf t.space _ _) rfl
      cases hi
  | t :: ts, [], is, js, _, hjs, h => by
    subst h
    cases t with
    | group f cs =>
      obtain ⟨_, _, hi⟩ := hjs (.opening f.space f.delim) rfl
      cases hi
    | ident t | literal t | punct t =>
      obtain ⟨_, _, hi⟩ := hjs (.leaf t.space _ _) rfl
      cases hi
  | t :: ts, u :: us, is, js, his, hjs, h => by
    simp only [flatten, List.append_assoc] at h
    obtain ⟨ht, hrest⟩ := unplaced_of_items t u h
    obtain ⟨hts, hend⟩ := unplacedAll_of_flatten ts us his hjs hrest
    exact ⟨by simp only [unplacedAll, ht, hts], hend⟩

theorem unplaced_of_items : (t u : Token) → {is js : List Item} → items t ++ is = items u ++ js →
    t.unplaced = u.unplaced ∧ is = js
  | .group f cs, .group g ds, is, js, h => by
    simp only [items, List.cons_append, List.append_assoc, List.nil_append, List.cons.injEq,
      Item.opening.injEq] at h
    obtain ⟨⟨hspace, hdelim⟩, h⟩ := h
    obtain ⟨hcs, hend⟩ := unplacedAll_of_flatten cs ds (by simp) (by simp) h
    obtain ⟨hclosing, rfl⟩ := List.cons.inj hend
    obtain ⟨hclose, -⟩ := Item.closing.inj hclosing
    obtain ⟨_, _, _, _⟩ := f
    obtain ⟨_, _, _, _⟩ := g
    cases hspace
    cases hdelim
    cases hclose
    exact ⟨by simp only [unplaced, hcs], rfl⟩
  | .ident t, .ident u, _, _, h => by
    obtain ⟨_, _, _⟩ := t
    obtain ⟨_, _, _⟩ := u
    cases h
    exact ⟨rfl, rfl⟩
  | .literal t, .literal u, _, _, h => by
    obtain ⟨_, _, _, _⟩ := t
    obtain ⟨_, _, _, _⟩ := u
    cases h
    exact ⟨rfl, rfl⟩
  | .punct t, .punct u, _, _, h => by
    obtain ⟨_, _, _⟩ := t
    obtain ⟨_, _, _⟩ := u
    cases h
    exact ⟨rfl, rfl⟩
  | .group .., .ident _, _, _, h | .group .., .literal _, _, _, h | .group .., .punct _, _, _, h => by cases h
  | .ident _, .group .., _, _, h | .literal _, .group .., _, _, h | .punct _, .group .., _, _, h => by cases h
  | .ident _, .literal _, _, _, h | .ident _, .punct _, _, _, h | .literal _, .ident _, _, _, h
  | .literal _, .punct _, _, _, h | .punct _, .ident _, _, _, h | .punct _, .literal _, _, _, h => by
    cases (Item.leaf.inj (List.cons.inj h).1).2.1

end

theorem unplacedAll_eq_nil {ts : List Token} (h : unplacedAll ts = []) : ts = [] := by
  cases ts with
  | nil => rfl
  | cons => cases h

theorem unplacedAll_eq_cons {ts us : List Token} {u : Token} (h : unplacedAll ts = u :: us) :
    ∃ t ts', ts = t :: ts' ∧ t.unplaced = u ∧ unplacedAll ts' = us := by
  cases ts with
  | nil => cases h
  | cons t ts =>
    obtain ⟨ht, hts⟩ := List.cons.inj h
    exact ⟨t, ts, rfl, ht, hts⟩

/-- The same tokens somewhere else begin with the same token. -/
theorem exists_same {t : Token} {ts us : List Token} (h : unplacedAll us = unplacedAll (t :: ts)) :
    ∃ u us', us = u :: us' ∧ Same t u ∧ unplacedAll us' = unplacedAll ts := unplacedAll_eq_cons h

theorem unplacedAll_eq_append {ts us vs : List Token} (h : unplacedAll ts = us ++ vs) :
    ∃ as bs, ts = as ++ bs ∧ unplacedAll as = us ∧ unplacedAll bs = vs := by
  rw [unplacedAll_eq_map] at h
  obtain ⟨as, bs, rfl, has, hbs⟩ := List.map_eq_append_iff.mp h
  exact ⟨as, bs, rfl, by rw [unplacedAll_eq_map, has], by rw [unplacedAll_eq_map, hbs]⟩

/-- Tokens whose items begin with those of others begin with the others. -/
theorem exists_append_of_flatten {ts us : List Token} {is : List Item} (h : flatten ts = flatten us ++ is) :
    ∃ as bs, ts = as ++ bs ∧ unplacedAll as = unplacedAll us ∧ flatten bs = is := by
  induction us generalizing ts with
  | nil => exact ⟨[], ts, rfl, rfl, h⟩
  | cons u us ih =>
    cases ts with
    | nil => cases u <;> simp [flatten, items] at h
    | cons t ts =>
      simp only [flatten, List.append_assoc] at h
      obtain ⟨ht, hts⟩ := unplaced_of_items t u h
      obtain ⟨as, bs, rfl, has, hbs⟩ := ih hts
      exact ⟨t :: as, bs, rfl, by simp only [unplacedAll, ht, has], hbs⟩

/-! ## Sources -/

/-- The lexemes of a source with tokens show the items of the tokens. -/
theorem shows_of_lex {src left : Text} {ts : List Token} {is : List Item}
    (hls : List.Forall₂ Lexeme.Shows (Lexeme.scan src).1 is) (h : lex src = .ok (ts, left)) :
    (Lexeme.scan src).2 = .blank left ∧ flatten ts = is :=
  flatten_of_nest hls h

theorem reads_of_lex {src left : Text} {ts : List Token} (h : lex src = .ok (ts, left)) :
    Item.Reads (Lexeme.unmarked src) (flatten ts) left ∧ Item.Blank left := by
  obtain ⟨is, left', hread, hls, hend⟩ := Lexeme.scan_readsTo src
  obtain ⟨he, rfl⟩ := shows_of_lex hls h
  rw [he] at hend
  obtain ⟨rfl, hblank⟩ := hend
  exact ⟨hread, hblank⟩

/-- The items of a token at any depth are among those of the list. -/
theorem mem_flatten_of_inside {t : Token} {ts : List Token} (h : Inside t ts) {i : Item} (hi : i ∈ t.items) :
    i ∈ flatten ts := by
  have hmem {u : Token} {us : List Token} (hu : u ∈ us) (hi : i ∈ u.items) : i ∈ flatten us := by
    obtain ⟨as, bs, rfl⟩ := List.append_of_mem hu
    simp [flatten_append, flatten, hi]
  induction h with
  | here ht => exact hmem ht hi
  | within hg _ ih => exact hmem hg (by simp [items, ih])

/-- A leaf that is read is one. -/
theorem exists_leaf_of_reads {t left space raw : Text} {is : List Item} {s : Shape} (h : Item.Reads t is left)
    (hmem : .leaf space s raw ∈ is) : ∃ rest, Shape.Leaf s raw rest := by
  induction h with
  | nil => cases hmem
  | opening _ _ _ ih | closing _ _ _ ih =>
    rcases List.mem_cons.mp hmem with hmem | hmem
    · cases hmem
    · exact ih hmem
  | leaf _ hleaf _ ih =>
    rcases List.mem_cons.mp hmem with hmem | hmem
    · obtain ⟨-, rfl, rfl⟩ := Item.leaf.inj hmem
      exact ⟨_, hleaf⟩
    · exact ih hmem

theorem lex_of_reads {src left : Text} {ts : List Token} (h : Item.Reads (Lexeme.unmarked src) (flatten ts) left)
    (hleft : Item.Blank left) : ∃ us, lex src = .ok (us, left) ∧ unplacedAll us = unplacedAll ts := by
  obtain ⟨us, hus, hflat⟩ := exists_lex h hleft (flatten_balanced ts)
  refine ⟨us, hus, ?_⟩
  have hsame : flatten us ++ [] = flatten ts ++ [] := by rw [hflat]
  exact (unplacedAll_of_flatten us ts (by simp) (by simp) hsame).1

/-- A source with bytes in it at which no token starts has no tokens. -/
theorem lex_ne_ok_of_stuck {src left : Text} {is : List Item} (h : Item.Reads (Lexeme.unmarked src) is left)
    (hleft : Item.Stuck left) (found : List Token × Text) : lex src ≠ .ok found := by
  intro hlex
  obtain ⟨_, _, _, hls, -⟩ := Lexeme.scan_readsTo src
  obtain ⟨he, -⟩ := shows_of_lex hls hlex
  obtain ⟨pos, cause, hbroken⟩ := Lexeme.scan_of_reads_stuck h hleft
  rw [he] at hbroken
  cases hbroken

/-- A source with tokens is read to its end from wherever its reading has come to. -/
theorem reads_behind {src left u : Text} {ts : List Token} {is : List Item} (h : lex src = .ok (ts, left))
    (hu : Item.Reads (Lexeme.unmarked src) is u) : ∃ js, flatten ts = is ++ js ∧ Item.Reads u js left := by
  obtain ⟨js, left', hread, -, hend⟩ := Lexeme.scanFrom_readsTo (c := ⟨1, 1, 0⟩) (Nat.lt_succ_self u.length)
  split at hend
  · obtain ⟨hshows, hblank⟩ := Lexeme.scan_of_reads_blank (hu.append hread) hend.2
    obtain ⟨hleft, hflat⟩ := shows_of_lex hshows h
    cases hblank.symm.trans hleft
    exact ⟨js, hflat, hread⟩
  · exact (lex_ne_ok_of_stuck (hu.append hread) hend _ h).elim

/-- No byte order mark is read over a line break. -/
theorem unmarked_append {a : Text} (ha : a.getLast? = some 0x0A) (b : Text) :
    Lexeme.unmarked (a ++ b) = Lexeme.unmarked a ++ b := by
  unfold Lexeme.unmarked
  cases h : Text.strip? Lexeme.markBytes a with
  | some r =>
    rw [Text.eq_append_of_strip? h, List.append_assoc, Text.strip?_append]
    rfl
  | none =>
    cases h' : Text.strip? Lexeme.markBytes (a ++ b) with
    | none => rfl
    | some r =>
      rcases List.append_eq_append_iff.mp (Text.eq_append_of_strip? h') with ⟨c, hc, -⟩ | ⟨c, hc, -⟩
      · have hmem : (0x0A : UInt8) ∈ Lexeme.markBytes := hc ▸ List.mem_append_left c (List.mem_of_getLast? ha)
        exact absurd hmem (by decide)
      · exact (Text.not_prefix_of_strip? h ⟨c, hc.symm⟩).elim

theorem getLast?_unmarked {a : Text} (ha : a.getLast? = some 0x0A) : (Lexeme.unmarked a).getLast? = some 0x0A := by
  unfold Lexeme.unmarked
  cases h : Text.strip? Lexeme.markBytes a with
  | none => exact ha
  | some r =>
    rw [Text.eq_append_of_strip? h, List.getLast?_append] at ha
    cases hr : r.getLast? with
    | none =>
      rw [hr] at ha
      exact absurd ha (by decide)
    | some b =>
      rw [hr] at ha
      rw [Option.getD_some, hr]
      exact ha

/-- Sources one after another, the first of which ends with a line break. What stands after its last token is
then white space before the second one. -/
theorem lex_append {a b w v : Text} {ts us : List Token} (ha : lex a = .ok (ts, w))
    (hend : a.getLast? = some 0x0A) (hb : lex b = .ok (us, v)) (hmark : Lexeme.unmarked b = b) :
    w.getLast? = some 0x0A ∧ ∃ cs, lex (a ++ b) = .ok (cs, if us = [] then w ++ v else v) ∧
      unplacedAll cs = unplacedAll (ts ++ after w us) := by
  obtain ⟨hread, hblank⟩ := reads_of_lex ha
  obtain ⟨hread', hblank'⟩ := reads_of_lex hb
  rw [hmark] at hread'
  obtain ⟨read, hsource, hresume⟩ := hread.resume
  have hw : w.getLast? = some 0x0A := by
    have hlast := getLast?_unmarked hend
    cases w with
    | nil => exact (hread.getLast?_ne hlast).elim
    | cons c w => rwa [hsource, List.getLast?_append_of_ne_nil _ (by simp)] at hlast
  have hunmarked : Lexeme.unmarked (a ++ b) = read ++ (w ++ b) := by
    rw [unmarked_append hend, hsource, List.append_assoc]
  have hfirst := hresume (w ++ b) (Shape.resumes_append hblank hw b)
  refine ⟨hw, ?_⟩
  by_cases hus : us = []
  · subst hus
    cases hread' with
    | nil =>
      rw [if_pos rfl]
      refine lex_of_reads ?_ fun x hx => ?_
      · rw [hunmarked, after, List.append_nil]
        exact hfirst
      · rcases List.mem_append.mp hx with hx | hx
        · exact hblank x hx
        · exact hblank' x hx
  · rw [if_neg hus]
    refine lex_of_reads ?_ hblank'
    rw [hunmarked, flatten_append]
    exact hfirst.append (reads_after hblank hus hread')

theorem unplacedAll_after {w : Text} {ts us : List Token} (h : unplacedAll us = unplacedAll ts) :
    unplacedAll (after w us) = unplacedAll (after w ts) := by
  cases ts with
  | nil => rw [unplacedAll_eq_nil h]
  | cons t ts =>
    obtain ⟨u, us, rfl, hu, hus⟩ := exists_same h
    rw [after, after, unplacedAll, unplacedAll, hus, unplaced_withSpace, unplaced_withSpace, hu, hu.space]

/-- A source behind another one that is empty or ends with a line break. -/
theorem lex_behind {a b w v : Text} {ts us : List Token} (ha : lex a = .ok (ts, w))
    (hend : a = [] ∨ a.getLast? = some 0x0A) (hb : lex b = .ok (us, v)) (hmark : Lexeme.unmarked b = b) :
    ∃ cs, lex (a ++ b) = .ok (cs, if us = [] then w ++ v else v) ∧ unplacedAll cs = unplacedAll (ts ++ after w us) := by
  rcases hend with rfl | hend
  · have hnone : lex [] = .ok ([], []) := rfl
    obtain ⟨rfl, rfl⟩ := Prod.mk.inj (Except.ok.inj (hnone.symm.trans ha))
    refine ⟨us, by simpa using hb, ?_⟩
    cases us with
    | nil => rfl
    | cons u us => cases u <;> rfl
  · exact (lex_append ha hend hb hmark).2

/-- What begins with a marker begins with no byte order mark. -/
theorem unmarked_of_marker {d : Text} (hd : d.head? = some 0x40) : Lexeme.unmarked d = d := by
  cases d with
  | nil => cases hd
  | cons b d =>
    obtain rfl := Option.some.inj hd
    rfl

/-- A line break behind a source goes to the white space after its last token. -/
theorem lex_break {d blank nl : Text} {ds : List Token} (hd : d.head? = some 0x40) (hlex : lex d = .ok (ds, blank))
    (hnl : nl = [0x0A] ∨ nl = [0x0D, 0x0A]) :
    ∃ cs, lex (d ++ nl) = .ok (cs, blank ++ nl) ∧ unplacedAll cs = unplacedAll ds := by
  obtain ⟨hread, hblank⟩ := reads_of_lex hlex
  rw [unmarked_of_marker hd] at hread
  obtain ⟨read, hsource, hresume⟩ := hread.resume
  have hbreak : Item.Blank nl := by
    rcases hnl with rfl | rfl <;> simp [Item.Blank, Shape.isSpace, Text.isLineBreak]
  have hspace : Item.Blank (blank ++ nl) := by
    intro b hb
    rcases List.mem_append.mp hb with hb | hb
    · exact hblank b hb
    · exact hbreak b hb
  refine lex_of_reads ?_ hspace
  rw [unmarked_of_marker (by simp [hd]), hsource, List.append_assoc]
  refine hresume _ (Shape.resumes_of_not_mem (fun b r hb => ?_) fun hmem => ?_)
  · exact Shape.halts_of_boundary (by simp [Shape.isLeafByte, hspace b (by simp [hb])])
  · exact absurd (hspace _ hmem) (by decide)

/-- A line between two sources. -/
theorem lex_line {a b d nl w blank v : Text} {ts ds us : List Token} (ha : lex a = .ok (ts, w))
    (hend : a = [] ∨ a.getLast? = some 0x0A) (hd : d.head? = some 0x40) (hds : ds ≠ []) (hlex : lex d = .ok (ds, blank))
    (hnl : nl = [0x0A] ∨ nl = [0x0D, 0x0A]) (hb : lex b = .ok (us, v)) (hmark : Lexeme.unmarked b = b) :
    ∃ cs, lex (a ++ (d ++ nl ++ b)) = .ok (cs, if us = [] then blank ++ nl ++ v else v) ∧
      unplacedAll cs = unplacedAll (ts ++ after w (ds ++ after (blank ++ nl) us)) := by
  obtain ⟨es, hes, hsame⟩ := lex_break hd hlex hnl
  have hlast : (d ++ nl).getLast? = some 0x0A := by rcases hnl with rfl | rfl <;> simp
  obtain ⟨-, fs, hfs, hsame'⟩ := lex_append hes hlast hb hmark
  obtain ⟨cs, hcs, hall⟩ := lex_behind ha hend hfs (unmarked_of_marker (by simp [hd]))
  have hbehind : unplacedAll fs = unplacedAll (ds ++ after (blank ++ nl) us) := by
    rw [hsame', unplacedAll_append, hsame, unplacedAll_append]
  have hne : fs ≠ [] := by
    rintro rfl
    have hnil : ds ++ after (blank ++ nl) us = [] := unplacedAll_eq_nil hbehind.symm
    exact hds (List.append_eq_nil_iff.mp hnil).1
  rw [if_neg hne] at hcs
  refine ⟨cs, hcs, ?_⟩
  rw [hall, unplacedAll_append, unplacedAll_after hbehind, unplacedAll_append]

/-- The source of tokens between parentheses, after the marker: the tokens are those of the group. -/
theorem lex_enclosed {src left space : Text} {ts : List Token} (h : lex src = .ok (ts, left))
    (hspace : Item.Blank space) : ∃ pos f us,
      lex (utf8 "@(" ++ sourceWithSpace ts ++ space ++ utf8 ")") = .ok ([.punct ⟨pos, [], '@'⟩, .group f us], []) ∧
      f.space = [] ∧ f.delim = .parenthesis ∧ unplacedAll us = unplacedAll ts := by
  have hblank : Item.Blank [] := by simp [Item.Blank]
  have hmarker : Shape.Leaf (.punct '@') (String.utf8EncodeChar '@')
      ([] ++ Delimiter.parenthesis.opening ++ (sourceWithSpace ts ++ (space ++ Delimiter.parenthesis.closing))) := by
    refine .punct (by decide) (by decide) (by decide +kernel) (by decide) fun h => ?_
    cases h
  obtain ⟨hread, -⟩ := reads_of_lex h
  obtain ⟨read, hsource, hresume⟩ := hread.resume
  obtain rfl : sourceWithSpace ts = read := by
    have := lex_unmarked h
    rw [hsource] at this
    exact List.append_cancel_right this
  have hresumes : Shape.Resumes left (space ++ Delimiter.parenthesis.closing) := by
    refine Shape.resumes_of_not_mem ?_ ?_
    · intro b r hb
      cases space with
      | nil =>
        obtain ⟨rfl, -⟩ := List.cons.inj hb
        decide
      | cons c space =>
        obtain ⟨rfl, -⟩ := List.cons.inj hb
        exact Shape.halts_of_boundary (by simp [Shape.isLeafByte, hspace c (.head _)])
    · intro hmem
      rcases List.mem_append.mp hmem with hmem | hmem
      · exact absurd (hspace _ hmem) (by decide)
      · exact absurd hmem (by decide)
  have hclose : Item.Reads (space ++ Delimiter.parenthesis.closing ++ []) [.closing space .parenthesis] [] :=
    .closing hspace (by decide) .nil
  rw [List.append_nil] at hclose
  have hgroup := Item.Reads.opening (d := .parenthesis) hblank (by decide) ((hresume _ hresumes).append hclose)
  have hall := Item.Reads.leaf hblank hmarker hgroup
  have hunmarked : Lexeme.unmarked (utf8 "@(" ++ sourceWithSpace ts ++ space ++ utf8 ")") = [] ++
      String.utf8EncodeChar '@' ++ ([] ++ Delimiter.parenthesis.opening ++
        (sourceWithSpace ts ++ (space ++ Delimiter.parenthesis.closing))) := by
    have hmark : Text.strip? Lexeme.markBytes (utf8 "@(" ++ sourceWithSpace ts ++ space ++ utf8 ")") = none := rfl
    rw [Lexeme.unmarked, hmark]
    simp [utf8]
    rfl
  have hlex : ∃ us, lex (utf8 "@(" ++ sourceWithSpace ts ++ space ++ utf8 ")") = .ok (us, []) ∧
      unplacedAll us = unplacedAll [.punct ⟨none, [], '@'⟩, .group ⟨none, [], .parenthesis, space⟩ ts] := by
    refine lex_of_reads ?_ hblank
    rw [hunmarked]
    simpa [flatten, items] using hall
  obtain ⟨us, hus, hsame⟩ := hlex
  obtain ⟨m, us, rfl, hm, hsame⟩ := unplacedAll_eq_cons hsame
  obtain ⟨g, us, rfl, hg, hsame⟩ := unplacedAll_eq_cons hsame
  obtain rfl := unplacedAll_eq_nil hsame
  cases m with
  | punct p =>
    cases g with
    | group f cs =>
      obtain ⟨_, pspace, char⟩ := p
      obtain ⟨_, fspace, delim, closeSpace⟩ := f
      cases hm
      obtain ⟨hf, hcs⟩ := Token.group.inj hg
      cases hf
      exact ⟨_, _, cs, hus, rfl, rfl, hcs⟩
    | _ => cases hg
  | _ => cases hm

end Token
end Atmark
