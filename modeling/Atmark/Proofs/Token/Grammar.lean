import Atmark.Proofs.Token.Positions

/-! The spelling of leaf tokens, as a grammar. `Leaf` says of which bytes a leaf token of each shape is made
and before which bytes it ends, `Blocked` which bytes start none; neither looks at how a source is scanned. The
scan takes off exactly the leaf that the grammar has (`ofText_eq_ok`, `exists_leaf`) and stops exactly where no
token starts. -/
namespace Atmark
namespace Shape

/-- Bytes that may stand between two quotes `q`: no quote, unless a backslash hides it where escapes are
allowed. -/
inductive Quoted (q : UInt8) (escapes : Bool) : Text → Prop
  | nil : Quoted q escapes []
  | plain {b : UInt8} {t : Text} : b ≠ q → (escapes = true → b ≠ 0x5C) → Quoted q escapes t →
      Quoted q escapes (b :: t)
  | hidden {b : UInt8} {t : Text} : escapes = true → Quoted q escapes t → Quoted q escapes (0x5C :: b :: t)

/-- What may stand between the quotes of a character literal: a code point, a byte that encodes none, or a
backslash with up to nine bytes after it on the same line, only the first of which may be a quote. -/
inductive RuneBody : Text → Prop
  | char {c : Char} : c ≠ '\'' → c ≠ '\n' → c ≠ '\\' → RuneBody (String.utf8EncodeChar c)
  | stray {b : UInt8} : 0x80 ≤ b.toNat → RuneBody [b]
  | escape {b : UInt8} {t : Text} : b ≠ 0x0A → (∀ x ∈ t, x ≠ 0x27 ∧ x ≠ 0x0A) → t.length ≤ 8 →
      RuneBody (0x5C :: b :: t)

/-- An exponent mark. -/
def isExponent (b : UInt8) : Bool := b = 0x65 || b = 0x45

/-- A sign. -/
def isSign (b : UInt8) : Bool := b = 0x2B || b = 0x2D

/-- A decimal digit. -/
def isDecimal (b : UInt8) : Bool := 0x30 ≤ b && b ≤ 0x39

/-- The byte goes on a run of a number after the bytes `before`: a sign does so after an exponent mark, unless
the number is hexadecimal. -/
def Continues (hex : Bool) (before : Text) (b : UInt8) : Prop :=
  isNumberByte b = true ∨ isSign b = true ∧ hex = false ∧ before.getLast?.any isExponent = true

/-- Every byte of `raw` goes on the run of a number, and the first byte of `rest` does not. -/
structure Run (hex : Bool) (raw rest : Text) : Prop where
  continues : ∀ before b after, raw = before ++ b :: after → Continues hex before b
  ends : ∀ b after, rest = b :: after → ¬Continues hex raw b

/-- The text begins with a digit. -/
def StartsDigit (t : Text) : Prop := ∃ b r, t = b :: r ∧ isDecimal b = true

/-- A number: a run that starts with a digit, and another one after a point. It is an integer if it has neither
a point nor a sign. -/
inductive Number : LiteralKind → Text → Text → Prop
  | whole {raw rest : Text} : StartsDigit raw → Run (startsHex raw) raw rest →
      (∀ after, rest = 0x2E :: after → ¬StartsDigit after) →
      Number (if raw.any isSign then .float else .int) raw rest
  | point {whole part rest : Text} : StartsDigit whole → StartsDigit part →
      Run (startsHex whole) whole (0x2E :: part) → Run (startsHex whole) part rest →
      Number .float (whole ++ 0x2E :: part) rest

/-- No character that would go on a word stands at the head of the text. -/
def EndsWord (rest : Text) : Prop :=
  ∀ d after, rest = String.utf8EncodeChar d ++ after → Text.isWordChar d = false

/-- The characters at which white space, a delimiter, a string or a number starts. -/
def starters : List Char := " \t\r\n()[]{}\"`0123456789".toList

/-- The bytes `raw` are a leaf token of the given shape before `rest`. Words and numbers are as long as they can
be, and a quote stands for itself only where no character literal starts. -/
inductive Leaf : Shape → Text → Text → Prop
  | string {body rest : Text} : Quoted 0x22 true body → Leaf (.literal .string) (0x22 :: (body ++ [0x22])) rest
  | rawString {body rest : Text} : Quoted 0x60 false body →
      Leaf (.literal .rawString) (0x60 :: (body ++ [0x60])) rest
  | rune {body rest : Text} : RuneBody body → Leaf (.literal .rune) (0x27 :: (body ++ [0x27])) rest
  | number {kind : LiteralKind} {raw rest : Text} : Number kind raw rest → Leaf (.literal kind) raw rest
  | ident {c : Char} {cs : List Char} {rest : Text} : c = '_' ∨ Text.isLetter c = true →
      (∀ d ∈ cs, Text.isWordChar d = true) → EndsWord rest → Leaf .ident (Text.ofRunes (c :: cs)) rest
  | punct {c : Char} {rest : Text} : c ∉ starters → c ≠ '_' → Text.isLetter c = false → c ≠ byteOrderMark →
      (c = '\'' → ∀ body after, RuneBody body → rest ≠ body ++ 0x27 :: after) →
      Leaf (.punct c) (String.utf8EncodeChar c) rest

/-- Bytes at which no token starts: they encode no code point, they are a byte order mark, or they open a
string, raw or not, that is not closed. -/
inductive Blocked : Text → Prop
  | encoding {t : Text} : t ≠ [] → (∀ c r, t ≠ String.utf8EncodeChar c ++ r) → Blocked t
  | mark {t : Text} : Blocked (String.utf8EncodeChar byteOrderMark ++ t)
  | string {t : Text} : (∀ body r, Quoted 0x22 true body → t ≠ body ++ 0x22 :: r) → Blocked (0x22 :: t)
  | rawString {t : Text} : (∀ body r, Quoted 0x60 false body → t ≠ body ++ 0x60 :: r) → Blocked (0x60 :: t)

/-! ## Quotes -/

theorem quotedTail_of_quoted {q : UInt8} {escapes : Bool} {body : Text} (hq : q ≠ 0x5C)
    (h : Quoted q escapes body) (rest : Text) :
    quotedTail q escapes (body ++ q :: rest) = some (body.length + 1) := by
  induction h with
  | nil =>
    unfold quotedTail
    simp
  | @plain b t hb hesc _ ih =>
    unfold quotedTail
    simp only [List.cons_append, ih, List.length_cons]
    rw [if_neg hb, if_neg (by simpa using hesc)]
    rfl
  | @hidden b t hesc _ ih =>
    unfold quotedTail
    simp only [List.cons_append, ih, List.length_cons]
    rw [if_neg hq.symm, if_pos (by simpa using hesc)]
    rfl

theorem exists_quoted {q : UInt8} {escapes : Bool} {r : Text} {n : Nat}
    (h : quotedTail q escapes r = some n) :
    ∃ body rest, Quoted q escapes body ∧ r = body ++ q :: rest := by
  fun_induction quotedTail q escapes r generalizing n with
  | case1 | case3 => cases h
  | case2 r => exact ⟨[], r, .nil, rfl⟩
  | case4 b hb hesc e r ih =>
    obtain ⟨m, hm, rfl⟩ := Option.map_eq_some_iff.mp h
    obtain ⟨body, rest, hbody, rfl⟩ := ih hm
    simp only [Bool.and_eq_true, decide_eq_true_eq] at hesc
    obtain ⟨hesc, rfl⟩ := hesc
    exact ⟨_, rest, .hidden hesc hbody, rfl⟩
  | case5 b r hb hesc ih =>
    obtain ⟨m, hm, rfl⟩ := Option.map_eq_some_iff.mp h
    obtain ⟨body, rest, hbody, rfl⟩ := ih hm
    exact ⟨_, rest, .plain hb (by simpa using hesc) hbody, rfl⟩

theorem quotedTail_eq_none {q : UInt8} {escapes : Bool} {t : Text} (hq : q ≠ 0x5C) :
    quotedTail q escapes t = none ↔ ∀ body r, Quoted q escapes body → t ≠ body ++ q :: r := by
  constructor
  · rintro h body r hbody rfl
    rw [quotedTail_of_quoted hq hbody] at h
    cases h
  · intro h
    cases hn : quotedTail q escapes t with
    | none => rfl
    | some n =>
      obtain ⟨body, rest, hbody, rfl⟩ := exists_quoted hn
      exact (h body rest hbody rfl).elim

/-! ## Character literals -/

theorem escapedRune_of_plain {t : Text} {i : Nat} (ht : ∀ x ∈ t, x ≠ 0x27 ∧ x ≠ 0x0A) (hi : 1 < i)
    (hlen : i + t.length ≤ 10) (rest : Text) :
    escapedRune i (t ++ 0x27 :: rest) = some (i + t.length + 2) := by
  induction t generalizing i with
  | nil =>
    simp only [List.length_nil] at hlen
    rw [List.nil_append, escapedRune, if_neg (by omega), if_pos (by simpa using hi)]
    rfl
  | cons x t ih =>
    obtain ⟨hquote, hbreak⟩ := ht x (.head _)
    simp only [List.length_cons] at hlen
    rw [List.cons_append, escapedRune, if_neg (by omega), if_neg (by simp [hquote]), if_neg hbreak,
      ih (fun y hy => ht y (.tail _ hy)) (by omega) (by omega), List.length_cons]
    congr 1
    omega

theorem exists_plain {t : Text} {i n : Nat} (hi : 1 < i) (h : escapedRune i t = some n) :
    ∃ a rest, (∀ x ∈ a, x ≠ 0x27 ∧ x ≠ 0x0A) ∧ i + a.length ≤ 10 ∧ t = a ++ 0x27 :: rest := by
  induction t generalizing i with
  | nil => cases h
  | cons b r ih =>
    simp only [escapedRune] at h
    split at h
    · cases h
    split at h
    · rename_i hb
      simp only [Bool.and_eq_true, decide_eq_true_eq] at hb
      exact ⟨[], r, by simp, by simp only [List.length_nil]; omega, by rw [hb.1]; rfl⟩
    split at h
    · cases h
    · rename_i hquote hbreak
      obtain ⟨a, rest, ha, hlen, rfl⟩ := ih (by omega) h
      refine ⟨b :: a, rest, ?_, by simp only [List.length_cons]; omega, rfl⟩
      intro x hx
      rcases List.mem_cons.mp hx with rfl | hx
      · exact ⟨fun hx => hquote (by simp [hx]; omega), hbreak⟩
      · exact ha x hx

/-- A byte that is no ASCII byte encodes nothing before an ASCII byte. -/
theorem firstPiece_of_stray {b x : UInt8} (hb : 0x80 ≤ b.toNat) (hx : x.toNat < 0x80) (r : Text) :
    Text.firstPiece b (x :: r) = ⟨none, [b]⟩ := by
  have hd : Text.decode? (b :: x :: r) = none := by
    rw [Option.eq_none_iff_forall_ne_some]
    rintro ⟨c, n⟩ hc
    obtain ⟨r', hb', -⟩ := Text.decode?_of_ascii (a := []) hx hc
    have hone := Text.decode?_encode c r'
    rw [← hb'] at hone
    simp [Text.decode?, Nat.not_lt.mpr hb] at hone
  rw [Text.firstPiece, hd]

theorem runeLength?_of_body {body : Text} (h : RuneBody body) (rest : Text) :
    runeLength? (body ++ 0x27 :: rest) = some (body.length + 2) := by
  cases h with
  | @char c hquote hbreak hslash =>
    have hne {d : Char} (h : c ≠ d) : c.toNat ≠ d.toNat := fun he => h (Char.toNat_inj.mp he)
    cases he : String.utf8EncodeChar c with
    | nil => exact (String.utf8EncodeChar_ne_nil he).elim
    | cons b bs =>
      have hb : b ≠ 0x5C := Text.encode_head_ne (by decide) (hne hslash) he
      have hb' : b ≠ 0x27 := Text.encode_head_ne (by decide) (hne hquote) he
      have hb'' : b ≠ 0x0A := Text.encode_head_ne (by decide) (hne hbreak) he
      simp [runeLength?, Text.firstPiece_encode he, hb, hb', hb'']
  | @stray b hb =>
    have hne {x : UInt8} (hx : x.toNat < 0x80) : b ≠ x := by
      rintro rfl
      omega
    simp [runeLength?, firstPiece_of_stray hb (x := 0x27) (by decide), hne (x := 0x5C) (by decide),
      hne (x := 0x27) (by decide), hne (x := 0x0A) (by decide)]
  | @escape b t hb ht hlen =>
    have htail := escapedRune_of_plain ht (i := 2) (by decide) (by omega) rest
    simp only [runeLength?, List.cons_append, if_true, escapedRune, htail]
    rw [if_neg (by decide), if_neg (by simp), if_neg hb]
    simp only [List.length_cons]
    congr 1
    omega

theorem exists_runeBody {r : Text} {n : Nat} (h : runeLength? r = some n) :
    ∃ body rest, RuneBody body ∧ r = body ++ 0x27 :: rest := by
  unfold runeLength? at h
  split at h
  · cases h
  rename_i b r
  split at h
  · rename_i hb
    cases r with
    | nil => cases h
    | cons x r =>
      simp only [escapedRune] at h
      rw [if_neg (by decide), if_neg (by simp)] at h
      split at h
      · cases h
      · rename_i hx
        obtain ⟨a, rest, ha, hlen, rfl⟩ := exists_plain (by decide) h
        exact ⟨0x5C :: x :: a, rest, .escape hx ha (by omega), by rw [hb]; rfl⟩
  · rename_i hb
    dsimp only at h
    split at h
    · cases h
    rename_i hb'
    obtain ⟨hquote, hbreak⟩ : b ≠ 0x27 ∧ b ≠ 0x0A := by simpa using hb'
    split at h
    · rename_i hget
      have hbegin := Text.firstPiece_isPrefix b r
      obtain ⟨rest, hrest⟩ := hbegin
      obtain ⟨after, rfl⟩ : ∃ after, rest = 0x27 :: after := by
        rw [← hrest, List.getElem?_append_right (Nat.le_refl _), Nat.sub_self] at hget
        cases rest with
        | nil => cases hget
        | cons x after => exact ⟨after, by simpa using hget⟩
      refine ⟨(Text.firstPiece b r).bytes, after, ?_, hrest.symm⟩
      cases hp : Text.firstPiece b r with
      | mk char bytes =>
        rw [hp] at hrest
        cases char with
        | some c =>
          obtain rfl := Text.firstPiece_bytes_of_char hp
          refine .char ?_ ?_ ?_
          · rintro rfl
            exact hquote (List.cons.inj hrest).1.symm
          · rintro rfl
            exact hbreak (List.cons.inj hrest).1.symm
          · rintro rfl
            exact hb (List.cons.inj hrest).1.symm
        | none =>
          obtain ⟨rfl, hd⟩ := Text.firstPiece_eq_stray hp
          refine .stray (Nat.le_of_not_lt fun hlt => ?_)
          obtain ⟨c, hc⟩ := Text.decode?_ascii hlt r
          rw [hd] at hc
          cases hc
    · cases h

theorem runeLength?_eq_none {t : Text} :
    runeLength? t = none ↔ ∀ body r, RuneBody body → t ≠ body ++ 0x27 :: r := by
  constructor
  · rintro h body r hbody rfl
    rw [runeLength?_of_body hbody] at h
    cases h
  · intro h
    cases hn : runeLength? t with
    | none => rfl
    | some n =>
      obtain ⟨body, rest, hbody, rfl⟩ := exists_runeBody hn
      exact (h body rest hbody rfl).elim

/-! ## Numbers -/

/-- A sign may follow. -/
def expects (hex : Bool) (before : Text) : Bool := !hex && before.getLast?.any isExponent

theorem continues_iff {hex : Bool} {before : Text} {b : UInt8} : Continues hex before b ↔
    isNumberByte b = true ∨ (expects hex before && isSign b) = true := by
  simp [Continues, expects, and_comm]

theorem numberRun_cons (hex exponent : Bool) (b : UInt8) (r : Text) : numberRun hex exponent (b :: r) =
    if isNumberByte b then
      ((numberRun hex (!hex && isExponent b) r).1 + 1, (numberRun hex (!hex && isExponent b) r).2)
    else if exponent && isSign b then ((numberRun hex false r).1 + 1, true)
    else (0, false) := rfl

theorem isSign_of_isNumberByte {b : UInt8} (h : isNumberByte b = true) : isSign b = false := by
  simp only [isSign, Bool.or_eq_false_iff, decide_eq_false_iff_not]
  constructor <;> rintro rfl <;> revert h <;> decide

/-- Only bytes that go on the run are taken off, and all of them. -/
theorem numberRun_append {hex : Bool} {raw rest : Text} (before : Text)
    (hraw : ∀ a b c, raw = a ++ b :: c → Continues hex (before ++ a) b)
    (hrest : ∀ b c, rest = b :: c → ¬Continues hex (before ++ raw) b) :
    numberRun hex (expects hex before) (raw ++ rest) = (raw.length, raw.any isSign) := by
  induction raw generalizing before with
  | nil =>
    cases rest with
    | nil => rfl
    | cons b rest =>
      have hb := hrest b rest rfl
      rw [continues_iff, not_or, List.append_nil] at hb
      rw [List.nil_append, numberRun_cons, if_neg hb.1, if_neg hb.2]
      rfl
  | cons b raw ih =>
    have hb := hraw [] b raw rfl
    rw [continues_iff, List.append_nil] at hb
    have hnext : expects hex (before ++ [b]) = (!hex && isExponent b) := by simp [expects]
    have ih := ih (before ++ [b])
      (fun a x c hc => by simpa using hraw (b :: a) x c (by rw [hc]; rfl))
      (fun x c hc => by simpa using hrest x c hc)
    rw [hnext] at ih
    rw [List.cons_append, numberRun_cons]
    by_cases hnum : isNumberByte b = true
    · simp [hnum, ih, isSign_of_isNumberByte hnum]
    · have hsign := hb.resolve_left hnum
      simp only [Bool.and_eq_true] at hsign
      have hexp : isExponent b = false := by
        have := hsign.2
        simp only [isSign, Bool.or_eq_true, decide_eq_true_eq] at this
        rcases this with rfl | rfl <;> rfl
      rw [hexp, Bool.and_false] at ih
      simp [hnum, hsign.1, hsign.2, ih]

theorem exists_run (hex : Bool) (t : Text) : ∃ raw rest, t = raw ++ rest ∧ Run hex raw rest := by
  have hall (t before : Text) : ∃ raw rest, t = raw ++ rest ∧
      (∀ a b c, raw = a ++ b :: c → Continues hex (before ++ a) b) ∧
      ∀ b c, rest = b :: c → ¬Continues hex (before ++ raw) b := by
    induction t generalizing before with
    | nil => exact ⟨[], [], rfl, by simp, by simp⟩
    | cons b t ih =>
      by_cases hb : Continues hex before b
      · obtain ⟨raw, rest, rfl, hraw, hrest⟩ := ih (before ++ [b])
        refine ⟨b :: raw, rest, rfl, ?_, by simpa using hrest⟩
        intro a x c hc
        cases a with
        | nil =>
          cases hc
          simpa using hb
        | cons y a =>
          cases hc
          simpa using hraw a x c rfl
      · refine ⟨[], b :: t, rfl, by simp, ?_⟩
        rintro x c ⟨⟩
        simpa using hb
  obtain ⟨raw, rest, ht, hraw, hrest⟩ := hall t []
  exact ⟨raw, rest, ht, hraw, hrest⟩

theorem Run.numberRun_eq {hex : Bool} {raw rest : Text} (h : Run hex raw rest) :
    numberRun hex false (raw ++ rest) = (raw.length, raw.any isSign) := by
  have := numberRun_append [] h.continues h.ends
  simpa [expects] using this

/-- Whether a number is hexadecimal is seen in its first run. -/
theorem Run.startsHex_append {hex : Bool} {raw rest : Text} (h : Run hex raw rest) (hraw : raw ≠ []) :
    startsHex (raw ++ rest) = startsHex raw := by
  match raw, rest with
  | [], _ => exact (hraw rfl).elim
  | _ :: _ :: _, _ => rfl
  | [a], [] => rfl
  | [a], b :: rest =>
    have hb := h.ends b rest rfl
    rw [continues_iff, not_or] at hb
    simp only [List.singleton_append, startsHex, Bool.and_eq_false_imp, Bool.or_eq_false_iff,
      decide_eq_false_iff_not]
    rintro -
    constructor <;> rintro rfl <;> exact hb.1 (by decide)

theorem StartsDigit.ne_nil {t : Text} (h : StartsDigit t) : t ≠ [] := by
  obtain ⟨b, r, rfl, -⟩ := h
  exact List.cons_ne_nil b r

theorem StartsDigit.append {t : Text} (h : StartsDigit t) (u : Text) : StartsDigit (t ++ u) := by
  obtain ⟨b, r, rfl, hb⟩ := h
  exact ⟨b, r ++ u, rfl, hb⟩

/-- The last byte before a point is no matter for the point. -/
theorem Run.of_head {hex : Bool} {raw r s : Text} {b : UInt8} (h : Run hex raw (b :: r)) :
    Run hex raw (b :: s) where
  continues := h.continues
  ends := by
    rintro x c ⟨⟩
    exact h.ends b r rfl

theorem number_of_number {kind : LiteralKind} {raw rest : Text} (h : Number kind raw rest) :
    number (raw ++ rest) = (raw.length, kind) := by
  cases h with
  | whole hdigit hrun hpoint =>
    have hn := hrun.numberRun_eq
    rw [← hrun.startsHex_append hdigit.ne_nil] at hn
    unfold number
    rw [hn]
    dsimp only
    rw [List.drop_left]
    split
    · rename_i d r
      rw [if_neg]
      intro hd
      exact hpoint _ rfl ⟨d, r, rfl, hd⟩
    · rfl
  | @point whole part rest hdigit hdigit' hrun hrun' =>
    have hrun : Run (startsHex whole) whole (0x2E :: (part ++ rest)) := hrun.of_head
    have hhex := hrun.startsHex_append hdigit.ne_nil
    have hn := hrun.numberRun_eq
    have hn' := hrun'.numberRun_eq
    obtain ⟨d, r, rfl, hd⟩ := hdigit'
    rw [List.append_assoc, List.cons_append]
    unfold number
    rw [hhex, hn]
    dsimp only
    rw [List.drop_left, List.cons_append]
    change (if isDecimal d = true then _ else _) = _
    rw [if_pos hd, ← List.cons_append, hn']
    simp only [List.length_append, List.length_cons]
    congr 1
    omega

/-- A digit is always taken off. -/
theorem Run.startsDigit {hex : Bool} {raw rest : Text} (h : Run hex raw rest)
    (ht : StartsDigit (raw ++ rest)) : StartsDigit raw := by
  obtain ⟨b, r, ht, hb⟩ := ht
  cases raw with
  | nil =>
    refine (h.ends b r ht (.inl ?_)).elim
    simp only [isDecimal, Bool.and_eq_true, decide_eq_true_eq] at hb
    simp [isNumberByte, hb]
  | cons c raw =>
    obtain ⟨rfl, -⟩ := List.cons.inj ht
    exact ⟨c, raw, rfl, hb⟩

theorem exists_number {t : Text} (h : StartsDigit t) :
    ∃ kind raw rest, t = raw ++ rest ∧ Number kind raw rest := by
  obtain ⟨raw, rest, rfl, hrun⟩ := exists_run (startsHex t) t
  have hdigit := hrun.startsDigit h
  rw [hrun.startsHex_append hdigit.ne_nil] at hrun
  by_cases hpoint : ∃ after, rest = 0x2E :: after ∧ StartsDigit after
  · obtain ⟨after, rfl, hafter⟩ := hpoint
    obtain ⟨part, rest, rfl, hrun'⟩ := exists_run (startsHex raw) after
    exact ⟨_, _, rest, by simp, .point hdigit (hrun'.startsDigit hafter) hrun.of_head hrun'⟩
  · exact ⟨_, raw, rest, rfl, .whole hdigit hrun fun after hafter hd => hpoint ⟨after, hafter, hd⟩⟩

theorem Number.startsDigit {kind : LiteralKind} {raw rest : Text} (h : Number kind raw rest) :
    StartsDigit raw := by
  cases h with
  | whole hdigit => exact hdigit
  | point hdigit => exact hdigit.append _

/-! ## Words -/

theorem wordLength_of_word (cs : List Char) {rest : Text} (hcs : ∀ d ∈ cs, Text.isWordChar d = true)
    (hrest : EndsWord rest) : wordLength (Text.ofRunes cs ++ rest) = (Text.ofRunes cs).length := by
  have hpieces : Text.pieces (Text.ofRunes cs ++ rest) =
      cs.map (fun c => ⟨some c, String.utf8EncodeChar c⟩) ++ Text.pieces rest := by
    induction cs with
    | nil => rfl
    | cons c cs ih =>
      have ih := ih fun d hd => hcs d (.tail _ hd)
      simp only [Text.ofRunes, List.flatMap_cons, List.append_assoc, List.map_cons, List.cons_append] at ih ⊢
      rw [Text.pieces_encode, ih]
  have hend : (Text.pieces rest).takeWhile (Text.isWordChar ·.rune) = [] := by
    cases rest with
    | nil => rfl
    | cons b r =>
      rw [Text.pieces_cons]
      refine List.takeWhile_cons_of_neg ?_
      cases hp : Text.firstPiece b r with
      | mk char bytes =>
        cases char with
        | some c =>
          have hbegin := Text.firstPiece_isPrefix b r
          rw [hp, Text.firstPiece_bytes_of_char hp] at hbegin
          obtain ⟨after, hafter⟩ := hbegin
          simpa [Text.Piece.rune] using hrest c after hafter.symm
        | none =>
          simp only [Text.Piece.rune, Option.getD_none]
          decide +kernel
  rw [wordLength, hpieces, List.takeWhile_append_of_pos (by simpa [Text.Piece.rune] using hcs), hend]
  simp [Text.joinPieces, Text.ofRunes, List.flatMap_map]

theorem exists_word (t : Text) :
    ∃ cs rest, t = Text.ofRunes cs ++ rest ∧ (∀ d ∈ cs, Text.isWordChar d = true) ∧ EndsWord rest := by
  -- each character takes at least one byte
  induction hn : t.length using Nat.strongRecOn generalizing t with
  | ind n ih =>
    by_cases h : EndsWord t
    · exact ⟨[], t, rfl, by simp, h⟩
    · simp only [EndsWord, Classical.not_forall, Bool.not_eq_false] at h
      obtain ⟨d, after, rfl, hd⟩ := h
      have hlt : after.length < n := by
        have := List.length_pos_iff.mpr (String.utf8EncodeChar_ne_nil (c := d))
        rw [List.length_append] at hn
        omega
      obtain ⟨cs, rest, rfl, hcs, hrest⟩ := ih _ hlt after rfl
      exact ⟨d :: cs, rest, by simp [Text.ofRunes], by simpa using ⟨hd, hcs⟩, hrest⟩

/-! ## Leaves -/

/-- A byte at which white space, a delimiter, a string or a number starts. -/
def isStarter (b : UInt8) : Bool :=
  isSpace b || (Lexeme.opened? b).isSome || Lexeme.isCloser b || b = 0x22 || b = 0x60 || isDecimal b

theorem isStarter_eq {c : Char} {b : UInt8} {bs : Text} (h : String.utf8EncodeChar c = b :: bs) :
    isStarter b = decide (c ∈ starters) := by
  rw [Bool.eq_iff_iff, decide_eq_true_iff]
  constructor
  · intro hb
    have hall : ∀ n : Fin 256, isStarter (UInt8.ofNat n.val) = true →
        n.val < 0x80 ∧ Char.ofNat n.val ∈ starters := by decide +kernel
    obtain ⟨hsmall, hmem⟩ := hall ⟨b.toNat, b.toNat_lt⟩ (by simpa using hb)
    have hc := (Text.encode_of_mem_ascii (c := c) hsmall (by simp [h])).1
    rwa [show Char.ofNat b.toNat = c by rw [← hc, Char.ofNat_toNat]] at hmem
  · intro hc
    have hall : starters.all (fun d => isStarter (UInt8.ofNat d.toNat) ∧ d.toNat < 0x80) = true := by
      decide +kernel
    obtain ⟨hstarter, hsmall⟩ := of_decide_eq_true (List.all_eq_true.mp hall c hc)
    rw [Text.encode_one hsmall] at h
    exact (List.cons.inj h).1 ▸ hstarter

/-- White space and delimiters are no leaves. -/
def isLeafByte (b : UInt8) : Bool := !isSpace b && !(Lexeme.opened? b).isSome && !Lexeme.isCloser b

theorem isLeafByte_of_not_starter {b : UInt8} (h : isStarter b = false) : isLeafByte b = true := by
  simp only [isStarter, Bool.or_eq_false_iff] at h
  simp [isLeafByte, h]

/-- Other bytes start a word or punctuation, if no character literal starts at them. -/
theorem ofText_eq_wordOrPunct {b : UInt8} {r : Text} (hb : isStarter b = false)
    (hquote : b = 0x27 → runeLength? r = none) : ofText b r = wordOrPunct b r := by
  simp only [isStarter, Bool.or_eq_false_iff, decide_eq_false_iff_not] at hb
  obtain ⟨⟨⟨-, hstring⟩, hraw⟩, hdecimal⟩ := hb
  rw [ofText, if_neg hstring, if_neg hraw]
  by_cases hrune : b = 0x27
  · rw [if_pos hrune, hquote hrune]
  · rw [if_neg hrune, if_neg (by simpa [isDecimal] using hdecimal)]

theorem quote_of_head {c : Char} {bs : Text} (h : String.utf8EncodeChar c = 0x27 :: bs) :
    c = '\'' ∧ bs = [] := by
  obtain ⟨hc, he⟩ := Text.encode_of_mem_ascii (c := c) (x := 0x27) (by decide) (by simp [h])
  rw [he] at h
  exact ⟨Char.toNat_inj.mp hc, (List.cons.inj h).2.symm⟩

theorem ofText_of_leaf {s : Shape} {raw rest : Text} (h : Leaf s raw rest) :
    ∃ b r, raw ++ rest = b :: r ∧ ofText b r = .ok (s, raw.length) ∧ isLeafByte b = true := by
  cases h with
  | @string body rest hbody =>
    refine ⟨0x22, body ++ 0x22 :: rest, by simp, ?_, by decide⟩
    rw [ofText, if_pos rfl, quotedTail_of_quoted (by decide) hbody]
    simp
  | @rawString body rest hbody =>
    refine ⟨0x60, body ++ 0x60 :: rest, by simp, ?_, by decide⟩
    rw [ofText, if_neg (by decide), if_pos rfl, quotedTail_of_quoted (by decide) hbody]
    simp
  | @rune body rest hbody =>
    refine ⟨0x27, body ++ 0x27 :: rest, by simp, ?_, by decide⟩
    rw [ofText, if_neg (by decide), if_neg (by decide), if_pos rfl, runeLength?_of_body hbody]
    simp
  | @number kind raw rest hnumber =>
    obtain ⟨b, r, ht, hb⟩ := hnumber.startsDigit.append rest
    refine ⟨b, r, ht, ?_, ?_⟩
    · have hne {x : UInt8} (hx : isDecimal x = false) : b ≠ x := by
        rintro rfl
        simp [hb] at hx
      rw [ofText, if_neg (hne (by decide)), if_neg (hne (by decide)), if_neg (hne (by decide)), if_pos (by exact hb), ← ht,
        number_of_number hnumber]
    · have hall : ∀ n : Fin 256, isDecimal (UInt8.ofNat n.val) = true →
          isLeafByte (UInt8.ofNat n.val) = true := by decide +kernel
      simpa using hall ⟨b.toNat, b.toNat_lt⟩ (by simpa using hb)
  | @ident c cs rest hc hcs hrest =>
    cases he : String.utf8EncodeChar c with
    | nil => exact (String.utf8EncodeChar_ne_nil he).elim
    | cons b bs =>
      have hall : ('\'' :: starters).all (fun d => d ≠ '_' ∧ Text.isLetter d = false) = true := by
        decide +kernel
      have hword : c ∉ '\'' :: starters := by
        intro hmem
        obtain ⟨hne, hletter⟩ := of_decide_eq_true (List.all_eq_true.mp hall c hmem)
        simp [hne, hletter] at hc
      obtain ⟨hquote, hstart⟩ := not_or.mp (mt List.mem_cons.mpr hword)
      have hmark : c ≠ byteOrderMark := by
        rintro rfl
        revert hc
        decide +kernel
      refine ⟨b, bs ++ (Text.ofRunes cs ++ rest), by simp [Text.ofRunes, he], ?_, ?_⟩
      · have hlength := wordLength_of_word (c :: cs) (fun d hd => ?_) hrest
        · rw [ofText_eq_wordOrPunct (by rw [isStarter_eq he, decide_eq_false hstart])
            (fun hb => (hquote (quote_of_head (hb ▸ he)).1).elim), wordOrPunct, Text.firstPiece_encode he]
          simp only [Text.ofRunes, List.flatMap_cons, he, List.cons_append, List.append_assoc] at hlength ⊢
          simp [hmark, hc, hlength]
        · rcases List.mem_cons.mp hd with rfl | hd
          · rcases hc with rfl | hc
            · rfl
            · simp [Text.isWordChar, hc]
          · exact hcs d hd
      · exact isLeafByte_of_not_starter (by rw [isStarter_eq he, decide_eq_false hstart])
  | @punct c rest hstart hword hletter hmark hquote =>
    cases he : String.utf8EncodeChar c with
    | nil => exact (String.utf8EncodeChar_ne_nil he).elim
    | cons b bs =>
      refine ⟨b, bs ++ rest, by rw [List.cons_append], ?_, ?_⟩
      · have hrune : b = 0x27 → runeLength? (bs ++ rest) = none := by
          rintro rfl
          obtain ⟨hc, rfl⟩ := quote_of_head he
          exact runeLength?_eq_none.mpr (hquote hc)
        rw [ofText_eq_wordOrPunct (by rw [isStarter_eq he, decide_eq_false hstart]) hrune, wordOrPunct,
          Text.firstPiece_encode he]
        simp [hmark, hword, hletter]
      · exact isLeafByte_of_not_starter (by rw [isStarter_eq he, decide_eq_false hstart])

theorem exists_leaf_of_word {s : Shape} {b : UInt8} {r : Text} {n : Nat} (hb : isStarter b = false)
    (hquote : b = 0x27 → runeLength? r = none) (h : wordOrPunct b r = .ok (s, n)) :
    ∃ raw rest, b :: r = raw ++ rest ∧ Leaf s raw rest := by
  unfold wordOrPunct at h
  split at h
  · cases h
  rename_i c bytes hp
  obtain ⟨rest, hrest⟩ := Text.firstPiece_isPrefix b r
  rw [hp, Text.firstPiece_bytes_of_char hp] at hrest
  split at h
  · cases h
  rename_i hmark
  split at h
  · rename_i hword
    cases h
    have hword : c = '_' ∨ Text.isLetter c = true := by simpa using hword
    obtain ⟨cs, rest', ht, hcs, hend⟩ := exists_word (b :: r)
    cases cs with
    | nil =>
      have hc := hend c rest (ht.symm.trans hrest.symm)
      rcases hword with rfl | hword
      · cases hc
      · simp [Text.isWordChar, hword] at hc
    | cons d cs =>
      have hsame : String.utf8EncodeChar d ++ (Text.ofRunes cs ++ rest') = String.utf8EncodeChar c ++ rest := by
        rw [hrest, ht]
        simp [Text.ofRunes]
      obtain ⟨rfl, -⟩ := Text.encode_append_inj hsame
      exact ⟨_, _, ht, .ident hword (fun x hx => hcs x (.tail _ hx)) hend⟩
  · rename_i hword
    cases h
    obtain ⟨hunderscore, hletter⟩ : c ≠ '_' ∧ Text.isLetter c = false := by simpa using hword
    refine ⟨_, rest, hrest.symm, .punct ?_ hunderscore hletter hmark ?_⟩
    · intro hmem
      cases he : String.utf8EncodeChar c with
      | nil => exact String.utf8EncodeChar_ne_nil he
      | cons x xs =>
        rw [he] at hrest
        obtain ⟨rfl, -⟩ := List.cons.inj hrest
        rw [isStarter_eq he, decide_eq_true hmem] at hb
        cases hb
    · rintro rfl
      obtain ⟨rfl, rfl⟩ := List.cons.inj hrest
      exact runeLength?_eq_none.mp (hquote rfl)

/-- What the scan takes off is the leaf of the grammar. -/
theorem exists_leaf {s : Shape} {b : UInt8} {r : Text} {n : Nat} (hb : isLeafByte b = true)
    (h : ofText b r = .ok (s, n)) : ∃ raw rest, b :: r = raw ++ rest ∧ Leaf s raw rest := by
  unfold ofText at h
  split at h
  · rename_i hstring
    split at h
    · cases h
      obtain ⟨body, rest, hbody, rfl⟩ := exists_quoted ‹_›
      exact ⟨_, rest, by simp [hstring], .string hbody⟩
    · cases h
  rename_i hstring
  split at h
  · rename_i hraw
    split at h
    · cases h
      obtain ⟨body, rest, hbody, rfl⟩ := exists_quoted ‹_›
      exact ⟨_, rest, by simp [hraw], .rawString hbody⟩
    · cases h
  rename_i hraw
  have hstarter (hdigit : isDecimal b = false) : isStarter b = false := by
    simp only [isLeafByte, Bool.and_eq_true, Bool.not_eq_true'] at hb
    simp [isStarter, hb, hstring, hraw, hdigit]
  split at h
  · rename_i hrune
    split at h
    · cases h
      obtain ⟨body, rest, hbody, rfl⟩ := exists_runeBody ‹_›
      exact ⟨_, rest, by simp [hrune], .rune hbody⟩
    · exact exists_leaf_of_word (hstarter (by rw [hrune]; decide)) (fun _ => ‹_›) h
  rename_i hrune
  split at h
  · rename_i hdigit
    obtain ⟨kind, raw, rest, ht, hnumber⟩ := exists_number ⟨b, r, rfl, hdigit⟩
    have hn := number_of_number hnumber
    rw [← ht] at hn
    rw [hn] at h
    cases h
    exact ⟨raw, rest, ht, .number hnumber⟩
  · rename_i hdigit
    exact exists_leaf_of_word (hstarter (by simpa [isDecimal] using hdigit)) (fun hb => (hrune hb).elim) h

/-! ## Where no token starts -/

theorem ofText_of_blocked {t : Text} (h : Blocked t) :
    ∃ b r e, t = b :: r ∧ ofText b r = .error e ∧ isLeafByte b = true := by
  cases h with
  | @encoding t hne hencoded =>
    obtain ⟨b, r, rfl⟩ := List.exists_cons_of_ne_nil hne
    have hd : Text.decode? (b :: r) = none := by
      rw [Option.eq_none_iff_forall_ne_some]
      rintro ⟨c, n⟩ hc
      obtain ⟨r', ht, -⟩ := Text.eq_encode_of_decode? hc
      exact hencoded c r' ht
    have hlarge : 0x80 ≤ b.toNat := by
      refine Nat.le_of_not_lt fun hlt => ?_
      obtain ⟨c, hc⟩ := Text.decode?_ascii hlt r
      rw [hd] at hc
      cases hc
    have hall : ∀ n : Fin 256, 0x80 ≤ n.val → isStarter (UInt8.ofNat n.val) = false := by decide +kernel
    have hb : isStarter b = false := by simpa using hall ⟨b.toNat, b.toNat_lt⟩ hlarge
    refine ⟨b, r, (1, .invalidEncoding), rfl, ?_, isLeafByte_of_not_starter hb⟩
    rw [ofText_eq_wordOrPunct hb (fun hq => by simp [hq] at hlarge), wordOrPunct, Text.firstPiece, hd]
  | @mark t =>
    have he : String.utf8EncodeChar byteOrderMark = [0xEF, 0xBB, 0xBF] := by decide
    refine ⟨0xEF, 0xBB :: 0xBF :: t, (3, .innerByteOrderMark), by rw [he]; rfl, ?_, by decide⟩
    rw [ofText_eq_wordOrPunct (by decide) (fun h => absurd h (by decide)), wordOrPunct,
      show 0xBB :: 0xBF :: t = [0xBB, 0xBF] ++ t from rfl, Text.firstPiece_encode he]
    rfl
  | @string t ht =>
    refine ⟨0x22, t, (1, .openString), rfl, ?_, by decide⟩
    rw [ofText, if_pos rfl, (quotedTail_eq_none (by decide)).mpr ht]
  | @rawString t ht =>
    refine ⟨0x60, t, (1, .openRawString), rfl, ?_, by decide⟩
    rw [ofText, if_neg (by decide), if_pos rfl, (quotedTail_eq_none (by decide)).mpr ht]

/-- The scan stops only where no token starts. -/
theorem blocked_of_ofText {b : UInt8} {r : Text} {e : Nat × Fault} (h : ofText b r = .error e) :
    Blocked (b :: r) := by
  have hword (h : wordOrPunct b r = .error e) : Blocked (b :: r) := by
    unfold wordOrPunct at h
    split at h
    · rename_i hp
      refine .encoding (List.cons_ne_nil b r) fun c s hs => ?_
      have hd := (Text.firstPiece_eq_stray hp).2
      rw [hs, Text.decode?_encode] at hd
      cases hd
    · rename_i c bytes hp
      obtain ⟨rest, hrest⟩ := Text.firstPiece_isPrefix b r
      rw [hp, Text.firstPiece_bytes_of_char hp] at hrest
      split at h
      · rename_i hmark
        rw [← hrest, hmark]
        exact .mark
      · split at h <;> cases h
  unfold ofText at h
  split at h
  · rename_i hb
    split at h
    · cases h
    · exact hb ▸ .string ((quotedTail_eq_none (by decide)).mp ‹_›)
  split at h
  · rename_i hb
    split at h
    · cases h
    · exact hb ▸ .rawString ((quotedTail_eq_none (by decide)).mp ‹_›)
  split at h
  · split at h
    · cases h
    · exact hword h
  split at h
  · cases h
  · exact hword h

end Shape
end Atmark
