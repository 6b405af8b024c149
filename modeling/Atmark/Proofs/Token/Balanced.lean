import Mathlib.Data.List.Forall2
import Atmark.Proofs.Token.Grammar

/-! Which sources have tokens. `Reads` reads a text from left to right, as white space, delimiters and leaves
of the grammar, and does not nest them; `Balanced` says that the delimiters fit. A source has tokens exactly if
the reading of it meets no bytes at which no token starts and is balanced, and then the tokens are that
reading, with each group between its delimiters (`lex_reads`). -/
namespace Atmark

/-- An element of the flat reading of a source, with the white space before it. -/
inductive Item where
  | opening (space : Text) (d : Delimiter)
  | closing (space : Text) (d : Delimiter)
  | leaf (space : Text) (s : Shape) (raw : Text)

namespace Item

/-- White space only. -/
def Blank (t : Text) : Prop := ∀ b ∈ t, Shape.isSpace b = true

/-- The text begins with the items, and `left` is left of it. -/
inductive Reads : Text → List Item → Text → Prop
  | nil {t : Text} : Reads t [] t
  | opening {space t left : Text} {d : Delimiter} {is : List Item} : Blank space → d ≠ .none →
      Reads t is left → Reads (space ++ d.opening ++ t) (.opening space d :: is) left
  | closing {space t left : Text} {d : Delimiter} {is : List Item} : Blank space → d ≠ .none →
      Reads t is left → Reads (space ++ d.closing ++ t) (.closing space d :: is) left
  | leaf {space raw t left : Text} {s : Shape} {is : List Item} : Blank space → Shape.Leaf s raw t →
      Reads t is left → Reads (space ++ raw ++ t) (.leaf space s raw :: is) left

/-- After white space, the text begins with bytes at which no token starts. -/
def Stuck (t : Text) : Prop := ∃ space r, t = space ++ r ∧ Blank space ∧ Shape.Blocked r

/-- Every opening delimiter is closed by its own closing delimiter, and what is between them is balanced. -/
inductive Balanced : List Item → Prop
  | nil : Balanced []
  | leaf {space : Text} {s : Shape} {raw : Text} {is : List Item} :
      Balanced is → Balanced (.leaf space s raw :: is)
  | group {space closeSpace : Text} {d : Delimiter} {inner is : List Item} :
      Balanced inner → Balanced is →
      Balanced (.opening space d :: inner ++ .closing closeSpace d :: is)

end Item

namespace Token

mutual

/-- The items of a token: a group gives its delimiters, with the items of its tokens between them. -/
def items : Token → List Item
  | .ident t => [.leaf t.space .ident t.name]
  | .literal t => [.leaf t.space (.literal t.kind) t.raw]
  | .punct t => [.leaf t.space (.punct t.char) (String.utf8EncodeChar t.char)]
  | .group f ts => .opening f.space f.delim :: flatten ts ++ [.closing f.closeSpace f.delim]

/-- The items of a token list. -/
def flatten : List Token → List Item
  | [] => []
  | t :: ts => items t ++ flatten ts

end

theorem flatten_append (ts us : List Token) : flatten (ts ++ us) = flatten ts ++ flatten us := by
  induction ts with
  | nil => rfl
  | cons t ts ih => simp [flatten, ih]

end Token

/-! ## The scan reads -/

namespace Lexeme

/-- The lexeme is the item, at some place. -/
inductive Shows : Lexeme → Item → Prop
  | opening {pos : Position} {space : Text} {d : Delimiter} : Shows (.opening pos space d) (.opening space d)
  | closing {pos : Position} {space : Text} {c : UInt8} {d : Delimiter} : d.closing = [c] →
      Shows (.closing pos space c) (.closing space d)
  | leaf {t : Token} {space raw : Text} {s : Shape} : t.items = [.leaf space s raw] →
      Shows (.leaf t) (.leaf space s raw)

theorem opened?_eq_some {d : Delimiter} {b : UInt8} : opened? b = some d ↔ d.opening = [b] := by
  constructor
  · exact opening_of_opened?
  · intro h
    cases d <;> simp only [Delimiter.opening, List.cons.injEq, and_true] at h
    · exact h ▸ rfl
    · exact h ▸ rfl
    · exact h ▸ rfl
    · cases h

theorem isCloser_iff {b : UInt8} : isCloser b = true ↔ ∃ d : Delimiter, d.closing = [b] := by
  constructor
  · intro h
    simp only [isCloser, Bool.or_eq_true, decide_eq_true_eq] at h
    rcases h with (rfl | rfl) | rfl
    · exact ⟨.parenthesis, rfl⟩
    · exact ⟨.bracket, rfl⟩
    · exact ⟨.brace, rfl⟩
  · rintro ⟨d, hd⟩
    cases d <;> simp only [Delimiter.closing, List.cons.injEq, and_true] at hd
    · exact hd ▸ rfl
    · exact hd ▸ rfl
    · exact hd ▸ rfl
    · cases hd

theorem token_items {s : Shape} {raw rest : Text} (h : Shape.Leaf s raw rest) (pos : Position)
    (space : Text) : (s.token pos space raw).items = [.leaf space s raw] := by
  cases h <;> rfl

theorem takeWhile_blank {space : Text} {b : UInt8} (hspace : Item.Blank space)
    (hb : Shape.isSpace b = false) (r : Text) :
    (space ++ b :: r).takeWhile Shape.isSpace = space ∧ (space ++ b :: r).dropWhile Shape.isSpace = b :: r := by
  have hneg : ¬Shape.isSpace b = true := by simp [hb]
  constructor
  · rw [List.takeWhile_append_of_pos hspace, List.takeWhile_cons_of_neg hneg, List.append_nil]
  · rw [List.dropWhile_append_of_pos hspace, List.dropWhile_cons_of_neg hneg]

theorem isSpace_delimiter {b : UInt8} (h : (opened? b).isSome ∨ isCloser b = true) :
    Shape.isSpace b = false := by
  have hall : ([0x28, 0x5B, 0x7B, 0x29, 0x5D, 0x7D] : Text).all (Shape.isSpace · = false) = true := by decide
  exact of_decide_eq_true (List.all_eq_true.mp hall b (mem_delimiters h))

theorem opened?_of_isCloser {b : UInt8} (h : isCloser b = true) : opened? b = none := by
  obtain ⟨d, hd⟩ := isCloser_iff.mp h
  cases d <;> simp only [Delimiter.closing, List.cons.injEq, and_true] at hd
  · exact hd ▸ rfl
  · exact hd ▸ rfl
  · exact hd ▸ rfl
  · cases hd

/-- A reading is found by the scan, which goes on with what is left. -/
theorem scanFrom_of_reads {t left : Text} {is : List Item} (h : Item.Reads t is left) {n : Nat} (c : Cursor)
    (hn : t.length < n) : ∃ ls m c', List.Forall₂ Shows ls is ∧ left.length < m ∧
      scanFrom n c t = (ls ++ (scanFrom m c' left).1, (scanFrom m c' left).2) := by
  induction h generalizing n c with
  | nil => exact ⟨[], n, c, .nil, hn, rfl⟩
  | @opening space t left d is hspace hd _ ih =>
    obtain ⟨b, hb⟩ : ∃ b, d.opening = [b] := by cases d <;> simp_all [Delimiter.opening]
    have hopened := opened?_eq_some.mpr hb
    obtain ⟨htake, hdrop⟩ := takeWhile_blank hspace (isSpace_delimiter (.inl (by rw [hopened]; rfl))) t
    simp only [hb, List.length_append, List.length_singleton] at hn
    obtain ⟨k, rfl⟩ : ∃ k, n = k + 1 := ⟨n - 1, by omega⟩
    obtain ⟨ls, m, c', hls, hm, hscan⟩ := ih (n := k) ((c.advance space).advance [b]) (by omega)
    refine ⟨.opening ((c.advance space).position 1) space d :: ls, m, c', .cons .opening hls, hm, ?_⟩
    rw [hb, List.append_assoc, List.singleton_append, scanFrom, htake, hdrop]
    simp only [hopened, hscan, List.cons_append]
  | @closing space t left d is hspace hd _ ih =>
    obtain ⟨b, hb⟩ : ∃ b, d.closing = [b] := by cases d <;> simp_all [Delimiter.closing]
    have hcloser := isCloser_iff.mpr ⟨d, hb⟩
    obtain ⟨htake, hdrop⟩ := takeWhile_blank hspace (isSpace_delimiter (.inr hcloser)) t
    simp only [hb, List.length_append, List.length_singleton] at hn
    obtain ⟨k, rfl⟩ : ∃ k, n = k + 1 := ⟨n - 1, by omega⟩
    obtain ⟨ls, m, c', hls, hm, hscan⟩ := ih (n := k) ((c.advance space).advance [b]) (by omega)
    refine ⟨.closing ((c.advance space).position 1) space b :: ls, m, c', .cons (.closing hb) hls, hm, ?_⟩
    rw [hb, List.append_assoc, List.singleton_append, scanFrom, htake, hdrop]
    simp only [opened?_of_isCloser hcloser, hcloser, if_true, hscan, List.cons_append]
  | @leaf space raw t left s is hspace hleaf _ ih =>
    obtain ⟨b, r, ht, hs, hb⟩ := Shape.ofText_of_leaf hleaf
    simp only [Shape.isLeafByte, Bool.and_eq_true, Bool.not_eq_true', Option.isSome_eq_false_iff,
      Option.isNone_iff_eq_none] at hb
    obtain ⟨⟨hblank, hopened⟩, hcloser⟩ := hb
    obtain ⟨htake, hdrop⟩ := takeWhile_blank hspace hblank r
    have hpos := (Shape.ofText_spells hs).1
    simp only [List.length_append] at hn
    obtain ⟨k, rfl⟩ : ∃ k, n = k + 1 := ⟨n - 1, by omega⟩
    obtain ⟨ls, m, c', hls, hm, hscan⟩ := ih (n := k) ((c.advance space).advance raw) (by omega)
    refine ⟨.leaf (s.token ((c.advance space).position raw.length) space raw) :: ls, m, c',
      .cons (.leaf (token_items hleaf _ _)) hls, hm, ?_⟩
    rw [List.append_assoc, ht, scanFrom, htake, hdrop]
    simp only [hopened, hcloser, hs]
    rw [← ht, List.take_left, List.drop_left]
    simp [hscan]

/-- The scan ends with the white space that is left, -/
theorem scanFrom_blank {n : Nat} {t : Text} (h : Item.Blank t) (c : Cursor) :
    scanFrom n c t = ([], .blank t) := by
  cases n with
  | zero => rfl
  | succ n =>
    have htake : (t ++ []).takeWhile Shape.isSpace = _ := List.takeWhile_append_of_pos h
    have hdrop : (t ++ []).dropWhile Shape.isSpace = _ := List.dropWhile_append_of_pos h
    rw [List.append_nil] at htake hdrop
    rw [scanFrom, hdrop]
    simp [htake]

/-- or where no token starts. -/
theorem scanFrom_stuck {n : Nat} {t : Text} (h : Item.Stuck t) (hn : t.length < n) (c : Cursor) :
    ∃ pos cause, scanFrom n c t = ([], .broken pos cause) := by
  obtain ⟨space, r, rfl, hspace, hr⟩ := h
  obtain ⟨b, r, e, rfl, he, hb⟩ := Shape.ofText_of_blocked hr
  simp only [Shape.isLeafByte, Bool.and_eq_true, Bool.not_eq_true', Option.isSome_eq_false_iff,
    Option.isNone_iff_eq_none] at hb
  obtain ⟨⟨hblank, hopened⟩, hcloser⟩ := hb
  obtain ⟨htake, hdrop⟩ := takeWhile_blank hspace hblank r
  obtain ⟨k, rfl⟩ : ∃ k, n = k + 1 := ⟨n - 1, by omega⟩
  rw [scanFrom, htake, hdrop]
  simp [hopened, hcloser, he]

/-- What the scan gives is a reading of the text up to its end or to bytes at which no token starts. -/
def ReadsTo (t : Text) (ls : List Lexeme) (e : Ending) : Prop :=
  ∃ is left, Item.Reads t is left ∧ List.Forall₂ Shows ls is ∧
    match e with
    | .blank space => left = space ∧ Item.Blank left
    | .broken .. => Item.Stuck left

theorem ReadsTo.cons {t u : Text} {l : Lexeme} {ls : List Lexeme} {e : Ending} {i : Item}
    (h : ReadsTo u ls e) (hl : Shows l i) (hread : ∀ is left, Item.Reads u is left → Item.Reads t (i :: is) left) :
    ReadsTo t (l :: ls) e := by
  obtain ⟨is, left, his, hls, he⟩ := h
  exact ⟨i :: is, left, hread is left his, .cons hl hls, he⟩

theorem scanFrom_readsTo {n : Nat} {c : Cursor} {t : Text} (hn : t.length < n) :
    ReadsTo t (scanFrom n c t).1 (scanFrom n c t).2 := by
  induction n generalizing c t with
  | zero => omega
  | succ n ih =>
    have hspace : Item.Blank (t.takeWhile Shape.isSpace) :=
      fun b hb => List.all_eq_true.mp List.all_takeWhile b hb
    have ht : t.takeWhile Shape.isSpace ++ t.dropWhile Shape.isSpace = t := List.takeWhile_append_dropWhile
    have hhead := List.head?_dropWhile_not Shape.isSpace t
    unfold scanFrom
    dsimp only
    generalize t.takeWhile Shape.isSpace = space at hspace ht
    split
    · rename_i hd
      rw [hd, List.append_nil] at ht
      exact ⟨[], t, .nil, .nil, ht.symm, ht ▸ hspace⟩
    rename_i b r hd
    rw [hd] at ht hhead
    have hblank : Shape.isSpace b = false := by simpa using hhead
    have hlength := congrArg List.length ht
    simp only [List.length_append, List.length_cons] at hlength
    split
    · rename_i d hopened
      refine (ih (by omega)).cons .opening fun is left his => ?_
      have hread := Item.Reads.opening (d := d) hspace (by rintro rfl; simp [opened?_eq_some, Delimiter.opening] at hopened) his
      rwa [opened?_eq_some.mp hopened, List.append_assoc, List.singleton_append, ht] at hread
    rename_i hopened
    split
    · rename_i hcloser
      obtain ⟨d, hclosing⟩ := isCloser_iff.mp hcloser
      refine (ih (by omega)).cons (.closing hclosing) fun is left his => ?_
      have hread := Item.Reads.closing (d := d) hspace (by rintro rfl; cases hclosing) his
      rwa [hclosing, List.append_assoc, List.singleton_append, ht] at hread
    rename_i hcloser
    split
    · exact ⟨[], t, .nil, .nil, space, b :: r, ht.symm, hspace, Shape.blocked_of_ofText ‹_›⟩
    · rename_i s len hs
      have hleaf : Shape.isLeafByte b = true := by simp [Shape.isLeafByte, hblank, hopened, hcloser]
      obtain ⟨raw, rest, hr, hgrammar⟩ := Shape.exists_leaf hleaf hs
      obtain ⟨b', r', hr', hs', -⟩ := Shape.ofText_of_leaf hgrammar
      rw [← hr] at hr'
      obtain ⟨rfl, rfl⟩ := List.cons.inj hr'
      rw [hs] at hs'
      cases hs'
      have hpos := (Shape.ofText_spells hs).1
      have hsplit := congrArg List.length hr
      simp only [List.length_cons, List.length_append] at hsplit
      rw [hr, List.take_left, List.drop_left]
      refine (ih (by omega)).cons (.leaf (token_items hgrammar _ _)) fun is left his => ?_
      have hread := Item.Reads.leaf hspace hgrammar his
      rwa [List.append_assoc, ← hr, ht] at hread

theorem scan_readsTo (src : Text) : ReadsTo (unmarked src) (scan src).1 (scan src).2 :=
  scanFrom_readsTo (Nat.lt_succ_self _)

/-- There is no other reading of a source up to its end, -/
theorem scan_of_reads_blank {src left : Text} {is : List Item} (h : Item.Reads (unmarked src) is left)
    (hleft : Item.Blank left) : List.Forall₂ Shows (scan src).1 is ∧ (scan src).2 = .blank left := by
  obtain ⟨ls, m, c, hls, -, hscan⟩ :=
    scanFrom_of_reads h ⟨1, 1, src.length - (unmarked src).length⟩ (Nat.lt_succ_self _)
  rw [scanFrom_blank hleft, List.append_nil] at hscan
  rw [scan, hscan]
  exact ⟨hls, rfl⟩

/-- and none that goes on where no token starts. -/
theorem scan_of_reads_stuck {src left : Text} {is : List Item} (h : Item.Reads (unmarked src) is left)
    (hleft : Item.Stuck left) : ∃ pos cause, (scan src).2 = .broken pos cause := by
  obtain ⟨ls, m, c, -, hm, hscan⟩ :=
    scanFrom_of_reads h ⟨1, 1, src.length - (unmarked src).length⟩ (Nat.lt_succ_self _)
  obtain ⟨pos, cause, hbroken⟩ := scanFrom_stuck hleft hm c
  rw [hbroken] at hscan
  exact ⟨pos, cause, by rw [scan, hscan]⟩

end Lexeme

/-! ## Nesting is balance -/

namespace Token

theorem balanced_append {is js : List Item} (his : Item.Balanced is) (hjs : Item.Balanced js) :
    Item.Balanced (is ++ js) := by
  induction his with
  | nil => exact hjs
  | leaf _ ih => exact .leaf ih
  | group hinner _ _ ih => simpa using Item.Balanced.group hinner ih

mutual

theorem items_balanced : (t : Token) → Item.Balanced t.items
  | .ident _ | .literal _ | .punct _ => .leaf .nil
  | .group _ ts => .group (flatten_balanced ts) .nil

theorem flatten_balanced : (ts : List Token) → Item.Balanced (flatten ts)
  | [] => .nil
  | t :: ts => balanced_append (items_balanced t) (flatten_balanced ts)

end

/-- The items of the open groups and of the tokens in them, before the items `inner`. -/
def openItems : List OpenGroup → List Item → List Item
  | [], inner => inner
  | g :: gs, inner => openItems gs (flatten g.before.reverse ++ .opening g.space g.delim :: inner)

theorem openItems_append (gs : List OpenGroup) (is js : List Item) :
    openItems gs (is ++ js) = openItems gs is ++ js := by
  induction gs generalizing is with
  | nil => rfl
  | cons g gs ih => simp only [openItems, ← List.cons_append, ← List.append_assoc, ih]

theorem closing_inj {d d' : Delimiter} {c : UInt8} (h : d.closing = [c]) (h' : d'.closing = [c]) :
    d = d' := by
  rw [← h'] at h
  revert h
  cases d <;> cases d' <;> decide

/-- Nested lexemes are the items of their tree, and the white space after them is left. -/
theorem flatten_of_nest {gs : List OpenGroup} {done : List Token} {ls : List Lexeme} {e : Ending}
    {is : List Item} {ts : List Token} {trailing : Text} (hls : List.Forall₂ Lexeme.Shows ls is)
    (h : nest gs done ls e = .ok (ts, trailing)) :
    e = .blank trailing ∧ flatten ts = openItems gs (flatten done.reverse) ++ is := by
  fun_induction nest gs done ls e generalizing is with
  | case1 | case3 | case6 | case8 => cases h
  | case2 =>
    cases hls
    cases h
    simp [openItems]
  | case4 gs done t ls e ih =>
    obtain - | ⟨hl, hls⟩ := hls
    cases hl with
    | leaf ht =>
      obtain ⟨he, hts⟩ := ih hls h
      exact ⟨he, by simp [hts, flatten_append, flatten, openItems_append, ht]⟩
  | case5 gs done pos space d ls e ih =>
    obtain - | ⟨hl, hls⟩ := hls
    cases hl
    obtain ⟨he, hts⟩ := ih hls h
    exact ⟨he, by simp [hts, openItems, flatten, openItems_append]⟩
  | case7 g gs done pos space c ls e hc frame =>
    rename_i ih
    obtain - | ⟨hl, hls⟩ := hls
    cases hl with
    | closing hd =>
      obtain ⟨he, hts⟩ := ih hls h
      refine ⟨he, ?_⟩
      simp [hts, closing_inj hd hc, openItems, flatten_append, flatten, items, openItems_append, frame]

/-- Balanced items have a tree, whatever is open around them. -/
theorem exists_nest {is : List Item} (h : Item.Balanced is) {ls : List Lexeme} {after : List Item}
    (hls : List.Forall₂ Lexeme.Shows ls (is ++ after)) : ∃ ts rest, List.Forall₂ Lexeme.Shows rest after ∧
      flatten ts = is ∧ ∀ gs done e, nest gs done ls e = nest gs (ts.reverse ++ done) rest e := by
  induction h generalizing ls after with
  | nil => exact ⟨[], ls, hls, rfl, fun _ _ _ => rfl⟩
  | leaf _ ih =>
    obtain - | ⟨hl, hls⟩ := hls
    cases hl with
    | @leaf t _ _ _ ht =>
      obtain ⟨ts, rest, hrest, hts, hnest⟩ := ih hls
      refine ⟨t :: ts, rest, hrest, by simp [flatten, ht, hts], fun gs done e => ?_⟩
      simp [nest, hnest]
  | @group space closeSpace d inner is _ _ ihinner ih =>
    rw [List.cons_append, List.cons_append, List.append_assoc, List.cons_append] at hls
    obtain - | ⟨hl, hls⟩ := hls
    cases hl with
    | @opening pos =>
      obtain ⟨cs, rest, hrest, hcs, hinner⟩ := ihinner hls
      obtain - | ⟨hl, hrest⟩ := hrest
      cases hl with
      | @closing closePos _ c _ hc =>
        obtain ⟨ts, rest, hrest, hts, hnest⟩ := ih hrest
        refine ⟨.group ⟨some (pos.withStop closePos.stop), space, d, closeSpace⟩ cs :: ts, rest, hrest, ?_,
          fun gs done e => ?_⟩
        · simp [flatten, items, hcs, hts]
        · simp [nest, hinner, hc, hnest]

/-- A balanced reading of a source up to its end is the reading of its tokens. -/
theorem exists_lex {src left : Text} {is : List Item} (h : Item.Reads (Lexeme.unmarked src) is left)
    (hleft : Item.Blank left) (hbalanced : Item.Balanced is) :
    ∃ ts, lex src = .ok (ts, left) ∧ flatten ts = is := by
  obtain ⟨hls, he⟩ := Lexeme.scan_of_reads_blank h hleft
  rw [← List.append_nil is] at hls
  obtain ⟨ts, rest, hrest, hts, hnest⟩ := exists_nest hbalanced hls
  cases hrest
  refine ⟨ts, ?_, hts⟩
  unfold lex
  dsimp only
  rw [hnest, he]
  simp [nest]

/-- A source has tokens exactly if nowhere in it, read from left to right outside of strings and character
literals, stand bytes that encode no code point, a byte order mark or a string that is not closed, and the
delimiters of the reading are balanced. The reading is then that of the tokens. -/
theorem lex_reads (src : Text) :
    ((∃ tokens trailing, lex src = .ok (tokens, trailing)) ↔
      (¬∃ is left, Item.Reads (Lexeme.unmarked src) is left ∧ Item.Stuck left) ∧
      ∀ is left, Item.Reads (Lexeme.unmarked src) is left → Item.Blank left → Item.Balanced is) ∧
    ∀ tokens trailing, lex src = .ok (tokens, trailing) → ∀ is left,
      Item.Reads (Lexeme.unmarked src) is left ∧ Item.Blank left ↔ is = flatten tokens ∧ left = trailing := by
  have hroot {is : List Item} (hls : List.Forall₂ Lexeme.Shows (Lexeme.scan src).1 is) {ts : List Token}
      {tr : Text} (h : lex src = .ok (ts, tr)) : (Lexeme.scan src).2 = .blank tr ∧ flatten ts = is :=
    flatten_of_nest hls h
  obtain ⟨is, left, hread, hls, he⟩ := Lexeme.scan_readsTo src
  refine ⟨⟨?_, ?_⟩, ?_⟩
  · rintro ⟨ts, tr, h⟩
    refine ⟨?_, fun is' left' hread' hblank' => ?_⟩
    · rintro ⟨is', left', hread', hstuck'⟩
      obtain ⟨pos, cause, he'⟩ := Lexeme.scan_of_reads_stuck hread' hstuck'
      rw [(hroot hls h).1] at he'
      cases he'
    · rw [← (hroot (Lexeme.scan_of_reads_blank hread' hblank').1 h).2]
      exact flatten_balanced ts
  · rintro ⟨hfree, hbalanced⟩
    cases hend : (Lexeme.scan src).2 with
    | broken pos cause =>
      rw [hend] at he
      exact (hfree ⟨is, left, hread, he⟩).elim
    | blank space =>
      rw [hend] at he
      obtain ⟨ts, hts, -⟩ := exists_lex hread he.2 (hbalanced is left hread he.2)
      exact ⟨ts, left, hts⟩
  · rintro ts tr h is' left'
    constructor
    · rintro ⟨hread', hblank'⟩
      obtain ⟨hls', he'⟩ := Lexeme.scan_of_reads_blank hread' hblank'
      obtain ⟨he'', hts⟩ := hroot hls' h
      rw [he'] at he''
      cases he''
      exact ⟨hts.symm, rfl⟩
    · rintro ⟨rfl, rfl⟩
      obtain ⟨hend, rfl⟩ := hroot hls h
      rw [hend] at he
      obtain ⟨rfl, hleft⟩ := he
      exact ⟨hread, hleft⟩

end Token
end Atmark
