import Atmark.Proofs.Token.Joining
import Atmark.Proofs.Token.Quotation

/-! Printed tokens are read again. What is printed for tokens is their source with other white space
(`Token.printAll_eq`): some is added, and some is left out, but only before a closing delimiter. A reading stays the
same after such a change (`Item.Reads.respaced`), so tokens that were read from a source are the ones that what is
printed for them is read as (`Token.lex_format`). -/
namespace Atmark

namespace Shape
variable {t t' u : Text}

/-- No number and no word goes on with the text. -/
def Halted (t : Text) : Prop := ∀ b r, t = b :: r → Halts b

theorem halted_of_head {b : UInt8} (h : isLeafByte b = false) (t : Text) : Halted (b :: t) := by
  intro c r hc
  obtain ⟨rfl, -⟩ := List.cons.inj hc
  exact halts_of_boundary h

theorem halted_opening {d : Delimiter} (hd : d ≠ .none) (t : Text) : Halted (d.opening ++ t) := by
  cases d with
  | none => exact (hd rfl).elim
  | _ => exact halted_of_head (by decide) t

theorem halted_closing {d : Delimiter} (hd : d ≠ .none) (t : Text) : Halted (d.closing ++ t) := by
  cases d with
  | none => exact (hd rfl).elim
  | _ => exact halted_of_head (by decide) t

/-- White space goes on nothing, whatever comes after it. -/
theorem halted_blank (ht : Item.Blank t) (h : t = [] → Halted u) : Halted (t ++ u) := by
  cases t with
  | nil => exact h rfl
  | cons b t => exact halted_of_head (by simp [isLeafByte, ht b (.head _)]) _

theorem Halted.unmarked_eq (h : Halted t) : Lexeme.unmarked t = t := by
  cases t with
  | nil => rfl
  | cons b t =>
    obtain ⟨-, -, -, -, hascii, -⟩ := h b t rfl
    have hmark : b ≠ 0xEF := by
      rintro rfl
      exact absurd hascii (by decide)
    simp [Lexeme.unmarked, show Lexeme.markBytes = [0xEF, 0xBB, 0xBF] from by decide, Text.strip?, hmark.symm]

/-- The texts are the same up to a place at which no number and no word goes on in the second one. -/
def Parts (t t' : Text) : Prop := ∃ u old new, t = u ++ old ∧ t' = u ++ new ∧ Halted new

theorem Parts.of_halted (t : Text) (h : Halted t') : Parts t t' := ⟨[], t, t', rfl, rfl, h⟩

theorem Parts.append (h : Parts t t') (v : Text) : Parts (v ++ t) (v ++ t') := by
  obtain ⟨u, old, new, rfl, rfl, hhalted⟩ := h
  exact ⟨v ++ u, old, new, (List.append_assoc ..).symm, (List.append_assoc ..).symm, hhalted⟩

/-- A leaf ends at the same place before the second text. -/
theorem Parts.leaf (h : Parts t t') {s : Shape} {raw : Text} (hs : s ≠ .punct '\'') (hleaf : Leaf s raw t) :
    Leaf s raw t' := by
  obtain ⟨u, old, new, rfl, rfl, hhalted⟩ := h
  exact hleaf.resume hhalted fun hquote => (hs hquote).elim

end Shape

/-! ## Other white space -/

namespace Item
variable {t u left left' : Text} {is js : List Item}

/-- The bytes of an item, the white space before it included. -/
def source : Item → Text
  | opening space d => space ++ d.opening
  | closing space d => space ++ d.closing
  | leaf space _ raw => space ++ raw

/-- The same item after other white space. Before a leaf not all of it may be left out. -/
inductive Respaced : Item → Item → Prop
  | opening {space space' : Text} {d : Delimiter} : (Blank space → Blank space') →
      Respaced (.opening space d) (.opening space' d)
  | closing {space space' : Text} {d : Delimiter} : (Blank space → Blank space') →
      Respaced (.closing space d) (.closing space' d)
  | leaf {space space' raw : Text} {s : Shape} : (Blank space → Blank space') → (space' = [] → space = []) →
      Respaced (.leaf space s raw) (.leaf space' s raw)

theorem Blank.append (ht : Blank t) (hu : Blank u) : Blank (t ++ u) := by
  intro b hb
  rcases List.mem_append.mp hb with hb | hb
  · exact ht b hb
  · exact hu b hb

/-- The texts are the same up to the first white space that is new. -/
theorem Reads.parts (h : Reads t is left) (hjs : List.Forall₂ Respaced is js) (hleft : Shape.Halted left') :
    Shape.Parts t (js.flatMap source ++ left') := by
  induction h generalizing js with
  | nil =>
    cases hjs
    exact .of_halted _ hleft
  | opening hspace hd _ _ =>
    obtain _ | ⟨hj, -⟩ := hjs
    cases hj with
    | opening hblank =>
      simp only [List.flatMap_cons, source, List.append_assoc]
      exact .of_halted _ (Shape.halted_blank (hblank hspace) fun _ => Shape.halted_opening hd _)
  | closing hspace hd _ _ =>
    obtain _ | ⟨hj, -⟩ := hjs
    cases hj with
    | closing hblank =>
      simp only [List.flatMap_cons, source, List.append_assoc]
      exact .of_halted _ (Shape.halted_blank (hblank hspace) fun _ => Shape.halted_closing hd _)
  | @leaf space raw t _ s _ hspace _ _ ih =>
    obtain _ | ⟨hj, hjs⟩ := hjs
    cases hj with
    | @leaf _ space' _ _ hblank hkept =>
      simp only [List.flatMap_cons, source, List.append_assoc]
      rcases eq_or_ne space' [] with rfl | hne
      · rw [hkept rfl]
        exact (ih hjs).append raw
      · exact .of_halted _ (Shape.halted_blank (hblank hspace) fun hnil => (hne hnil).elim)

/-- Items are read after other white space too, if none of them is a quote that stands for itself. -/
theorem Reads.respaced (h : Reads t is left) (hquote : ∀ space raw, .leaf space (.punct '\'') raw ∉ is)
    (hjs : List.Forall₂ Respaced is js) (hleft : Shape.Halted left') :
    Reads (js.flatMap source ++ left') js left' := by
  induction h generalizing js with
  | nil =>
    cases hjs
    exact .nil
  | opening hspace hd _ ih =>
    obtain _ | ⟨hj, hjs⟩ := hjs
    cases hj with
    | opening hblank =>
      rw [List.flatMap_cons, List.append_assoc]
      exact .opening (hblank hspace) hd (ih (fun space raw hmem => hquote space raw (.tail _ hmem)) hjs)
  | closing hspace hd _ ih =>
    obtain _ | ⟨hj, hjs⟩ := hjs
    cases hj with
    | closing hblank =>
      rw [List.flatMap_cons, List.append_assoc]
      exact .closing (hblank hspace) hd (ih (fun space raw hmem => hquote space raw (.tail _ hmem)) hjs)
  | @leaf space raw t _ s _ hspace hleaf hreads ih =>
    obtain _ | ⟨hj, hjs⟩ := hjs
    cases hj with
    | leaf hblank _ =>
      have hs : s ≠ .punct '\'' := by
        rintro rfl
        exact hquote space raw (.head _)
      rw [List.flatMap_cons, List.append_assoc]
      exact .leaf (hblank hspace) ((hreads.parts hjs hleft).leaf hs hleaf)
        (ih (fun space raw hmem => hquote space raw (.tail _ hmem)) hjs)

/-- A text that begins with an item does not begin with a byte order mark. -/
theorem Reads.unmarked_eq {i : Item} (h : Reads t (i :: is) left) : Lexeme.unmarked t = t := by
  cases h with
  | opening hspace hd _ =>
    rw [List.append_assoc]
    exact (Shape.halted_blank hspace fun _ => Shape.halted_opening hd _).unmarked_eq
  | closing hspace hd _ =>
    rw [List.append_assoc]
    exact (Shape.halted_blank hspace fun _ => Shape.halted_closing hd _).unmarked_eq
  | @leaf space _ _ _ _ _ hspace hleaf _ =>
    rcases eq_or_ne space [] with rfl | hne
    · exact hleaf.unmarked_eq
    · rw [List.append_assoc]
      exact (Shape.halted_blank hspace fun hnil => (hne hnil).elim).unmarked_eq

end Item

/-! ## The printer -/

namespace Token

mutual

/-- The token without its position and white space. -/
def stripped : Token → Token
  | .ident t => .ident { t with pos := none, space := [] }
  | .literal t => .literal { t with pos := none, space := [] }
  | .punct t => .punct { t with pos := none, space := [] }
  | .group f ts => .group { f with pos := none, space := [], closeSpace := [] } (strippedAll ts)

/-- Tokens without their positions and white space. -/
def strippedAll : List Token → List Token
  | [] => []
  | t :: ts => t.stripped :: strippedAll ts

end

mutual

@[simp] theorem stripped_unplaced : (t : Token) → t.unplaced.stripped = t.stripped
  | .ident _ | .literal _ | .punct _ => rfl
  | .group f ts => by simp only [unplaced, stripped, strippedAll_unplacedAll ts]

@[simp] theorem strippedAll_unplacedAll : (ts : List Token) → strippedAll (unplacedAll ts) = strippedAll ts
  | [] => rfl
  | t :: ts => by simp only [unplacedAll, strippedAll, stripped_unplaced t, strippedAll_unplacedAll ts]

end

theorem strippedAll_eq_map (ts : List Token) : strippedAll ts = ts.map stripped := by
  induction ts with
  | nil => rfl
  | cons t ts ih => rw [strippedAll, ih, List.map_cons]

/-- What has been written since the last token, and `before` if there is none. -/
def trail (before : Text) : List Token → Text
  | [] => before
  | t :: ts => trail (breakAfter t ts.head?) ts

/-- The white space that is written after an opening delimiter. -/
def openBreak (f : Frame) (ts : List Token) : Text :=
  if f.delim = .brace ∧ ts.head?.any glued then utf8 "\n" else []

/-- What is written for a group before its first token. -/
def printOpening (last : Option Char) (f : Frame) (ts : List Token) : Text :=
  gap last (.group f ts) ++ f.delim.opening ++ openBreak f ts

/-- The white space that is written before a closing delimiter after the character `last`. -/
def closeBreak (last : Option Char) (f : Frame) (ts : List Token) : Text :=
  if f.delim = .brace then beforeBrace last ts.isEmpty f.closeSpace else beforeCloser f.closeSpace

theorem print_group (last : Option Char) (f : Frame) (ts : List Token) :
    print last (.group f ts) =
      printOpening last f ts ++ printAll (lastChar last (printOpening last f ts)) ts ++
        closeBreak
          (lastChar last (printOpening last f ts ++ printAll (lastChar last (printOpening last f ts)) ts)) f ts ++
        f.delim.closing := by
  rw [print]
  unfold printOpening closeBreak openBreak
  by_cases hdelim : f.delim = .brace
  · by_cases hglued : ts.head?.any glued = true <;> simp [hdelim, hglued]
  · simp [hdelim]

mutual

/-- The token with the white space that it is printed with after the character `last` and the white space `before`. -/
def printed (before : Text) (last : Option Char) : Token → Token
  | .ident t => .ident { t with space := before ++ gap last (.ident t) }
  | .literal t => .literal { t with space := before ++ gap last (.literal t) }
  | .punct t => .punct { t with space := before ++ gap last (.punct t) }
  | .group f ts =>
    let start := lastChar last (printOpening last f ts)
    let stop := lastChar last (printOpening last f ts ++ printAll start ts)
    .group { f with
      space := before ++ gap last (.group f ts)
      closeSpace := trail (openBreak f ts) ts ++ closeBreak stop f ts } (printedAll (openBreak f ts) start ts)

/-- Tokens with the white space that they are printed with. -/
def printedAll (before : Text) (last : Option Char) : List Token → List Token
  | [] => []
  | t :: ts =>
    printed before last t ::
      printedAll (breakAfter t ts.head?) (lastChar last (print last t ++ breakAfter t ts.head?)) ts

end

theorem space_printed (before : Text) (last : Option Char) (t : Token) :
    (printed before last t).space = before ++ gap last t := by
  cases t <;> rfl

mutual

theorem stripped_printed : (t : Token) → ∀ before last, (printed before last t).stripped = t.stripped
  | .ident _, _, _ | .literal _, _, _ | .punct _, _, _ => rfl
  | .group f ts, _, _ => by simp only [printed, stripped, strippedAll_printedAll ts]

theorem strippedAll_printedAll : (ts : List Token) → ∀ before last,
    strippedAll (printedAll before last ts) = strippedAll ts
  | [], _, _ => rfl
  | t :: ts, _, _ => by simp only [printedAll, strippedAll, stripped_printed t, strippedAll_printedAll ts]

end

/-- Tokens after others are printed with what has been written since those. -/
theorem printedAll_append (ts us : List Token) (before : Text) (last : Option Char) :
    ∃ vs before' last', printedAll before last (ts ++ us) = vs ++ printedAll before' last' us ∧
      strippedAll vs = strippedAll ts ∧ before' = (ts.getLast?.map (breakAfter · us.head?)).getD before := by
  induction ts generalizing before last with
  | nil => exact ⟨[], before, last, rfl, rfl, rfl⟩
  | cons t ts ih =>
    obtain ⟨vs, before', last', hall, hvs, hbefore⟩ :=
      ih (breakAfter t (ts ++ us).head?) (lastChar last (print last t ++ breakAfter t (ts ++ us).head?))
    refine ⟨printed before last t :: vs, before', last', ?_, ?_, ?_⟩
    · rw [List.cons_append, printedAll, hall, List.cons_append]
    · rw [strippedAll, strippedAll, stripped_printed, hvs]
    · rw [hbefore]
      cases ts with
      | nil => rfl
      | cons u ts =>
        rw [List.getLast?_cons_cons]
        obtain ⟨v, hv⟩ := Option.isSome_iff_exists.mp (List.getLast?_isSome.mpr (List.cons_ne_nil u ts))
        rw [hv]
        rfl

mutual

theorem print_eq : (t : Token) → ∀ before last, print last t = gap last t ++ (printed before last t).source
  | .ident _, _, _ | .literal _, _, _ | .punct _, _, _ => rfl
  | .group f ts, before, last => by
    have hall := printAll_eq ts (openBreak f ts) (lastChar last (printOpening last f ts))
    rw [print_group, printed, source]
    generalize closeBreak _ f ts = stop
    generalize hstart : lastChar last (printOpening last f ts) = start at hall ⊢
    calc printOpening last f ts ++ printAll start ts ++ stop ++ f.delim.closing
        = gap last (.group f ts) ++ f.delim.opening ++ (openBreak f ts ++ printAll start ts) ++ stop ++
            f.delim.closing := by rw [printOpening, List.append_assoc (gap _ _ ++ _)]
      _ = gap last (.group f ts) ++ (f.delim.opening ++ sourceWithSpace (printedAll (openBreak f ts) start ts) ++
            (trail (openBreak f ts) ts ++ stop) ++ f.delim.closing) := by
          rw [hall]
          simp only [List.append_assoc]

/-- What is printed is the source with that white space. -/
theorem printAll_eq : (ts : List Token) → ∀ before last,
    before ++ printAll last ts = sourceWithSpace (printedAll before last ts) ++ trail before ts
  | [], before, _ => by simp [printAll, printedAll, sourceWithSpace, trail]
  | t :: ts, before, last => by
    have hall := printAll_eq ts (breakAfter t ts.head?) (lastChar last (print last t ++ breakAfter t ts.head?))
    rw [printedAll, sourceWithSpace, trail, space_printed]
    generalize printedAll _ (lastChar last (print last t ++ breakAfter t ts.head?)) ts = us at hall ⊢
    calc before ++ printAll last (t :: ts)
        = before ++ print last t ++
            (breakAfter t ts.head? ++ printAll (lastChar last (print last t ++ breakAfter t ts.head?)) ts) := by
          simp only [printAll, List.append_assoc]
      _ = before ++ gap last t ++ (printed before last t).source ++ sourceWithSpace us ++
            trail (breakAfter t ts.head?) ts := by
          rw [hall, print_eq t before]
          simp only [List.append_assoc]

end

theorem blank_newline : Item.Blank (utf8 "\n") := by
  intro b hb
  obtain rfl := List.mem_singleton.mp (show b ∈ [0x0A] from hb)
  rfl

theorem blank_breakAfter (t : Token) (next : Option Token) : Item.Blank (breakAfter t next) := by
  unfold breakAfter
  split
  · exact blank_newline
  · simp [Item.Blank]

theorem blank_trail (ts : List Token) {before : Text} (h : Item.Blank before) : Item.Blank (trail before ts) := by
  induction ts generalizing before with
  | nil => exact h
  | cons t ts ih => exact ih (blank_breakAfter t ts.head?)

theorem blank_openBreak (f : Frame) (ts : List Token) : Item.Blank (openBreak f ts) := by
  unfold openBreak
  split
  · exact blank_newline
  · simp [Item.Blank]

/-- White space is only left out, or a line break is written. -/
theorem blank_closeBreak (last : Option Char) {f : Frame} (ts : List Token) (h : Item.Blank f.closeSpace) :
    Item.Blank (closeBreak last f ts) := by
  have hnil : Item.Blank [] := by simp [Item.Blank]
  have hdrop : Item.Blank (f.closeSpace.dropWhile Text.isLineBreak) :=
    fun b hb => h b ((List.dropWhile_suffix _).mem hb)
  unfold closeBreak beforeBrace beforeCloser
  dsimp only
  repeat' split
  all_goals first | exact h | exact hdrop | exact hnil | exact blank_newline

/-- White space is kept, or there is none and a space is written. -/
theorem respaced_gap {before : Text} (last : Option Char) (t : Token) (hbefore : Item.Blank before) :
    (Item.Blank t.space → Item.Blank (before ++ gap last t)) ∧ (before ++ gap last t = [] → t.space = []) := by
  have hspace : Item.Blank (utf8 " ") := by
    intro b hb
    obtain rfl := List.mem_singleton.mp (show b ∈ [0x20] from hb)
    rfl
  refine ⟨fun h => hbefore.append ?_, fun h => ?_⟩
  · unfold gap
    repeat' split
    all_goals first | exact h | exact hspace | simp [Item.Blank]
  · unfold gap at h
    by_contra hne
    have hglued : t.glued = false := by simpa [glued] using hne
    rw [hglued] at h
    simp [hne] at h

mutual

theorem respaced_items : (t : Token) → ∀ {before : Text} last, Item.Blank before →
    List.Forall₂ Item.Respaced t.items (printed before last t).items
  | .ident t, _, last, h =>
    have hgap := respaced_gap last (.ident t) h
    .cons (.leaf hgap.1 hgap.2) .nil
  | .literal t, _, last, h =>
    have hgap := respaced_gap last (.literal t) h
    .cons (.leaf hgap.1 hgap.2) .nil
  | .punct t, _, last, h =>
    have hgap := respaced_gap last (.punct t) h
    .cons (.leaf hgap.1 hgap.2) .nil
  | .group f ts, _, last, h => by
    have hall := respaced_flatten ts (lastChar last (printOpening last f ts)) (blank_openBreak f ts)
    refine .cons (.opening (respaced_gap last (.group f ts) h).1) ?_
    refine List.rel_append hall (.cons (.closing fun hclose => ?_) .nil)
    exact (blank_trail ts (blank_openBreak f ts)).append (blank_closeBreak _ ts hclose)

/-- White space that is printed stands where there was some, or where nothing changes by it. -/
theorem respaced_flatten : (ts : List Token) → ∀ {before : Text} last, Item.Blank before →
    List.Forall₂ Item.Respaced (flatten ts) (flatten (printedAll before last ts))
  | [], _, _, _ => .nil
  | t :: ts, _, last, h =>
    List.rel_append (respaced_items t last h) (respaced_flatten ts _ (blank_breakAfter t ts.head?))

end

/-! ## Reading what was printed -/

mutual

theorem items_source : (t : Token) → t.items.flatMap Item.source = t.space ++ t.source
  | .ident _ | .literal _ | .punct _ => by simp [items, Item.source, space, source]
  | .group f ts => by simp [items, Item.source, space, source, flatten_source ts]

theorem flatten_source : (ts : List Token) → (flatten ts).flatMap Item.source = sourceWithSpace ts
  | [] => rfl
  | t :: ts => by rw [flatten, List.flatMap_append, items_source t, flatten_source ts, sourceWithSpace]

end

mutual

theorem inside_of_mem_items {space raw : Text} {c : Char} : (t : Token) → .leaf space (.punct c) raw ∈ t.items →
    ∃ p : Punct, p.char = c ∧ Inside (.punct p) [t]
  | .ident _, h | .literal _, h => by simp [items] at h
  | .punct p, h => by
    obtain ⟨-, rfl, -⟩ : space = p.space ∧ c = p.char ∧ _ := by simpa [items] using h
    exact ⟨p, rfl, .here (.head _)⟩
  | .group f ts, h => by
    obtain ⟨p, hp, hinside⟩ := inside_of_mem_flatten ts (by simpa [items] using h)
    exact ⟨p, hp, .within (.head _) hinside⟩

/-- A character among the items is one of the tokens, at some depth. -/
theorem inside_of_mem_flatten {space raw : Text} {c : Char} : (ts : List Token) →
    .leaf space (.punct c) raw ∈ flatten ts → ∃ p : Punct, p.char = c ∧ Inside (.punct p) ts
  | [], h => by cases h
  | t :: ts, h => by
    rcases List.mem_append.mp h with h | h
    · obtain ⟨p, hp, hinside⟩ := inside_of_mem_items t h
      exact ⟨p, hp, hinside.mono (by simp)⟩
    · obtain ⟨p, hp, hinside⟩ := inside_of_mem_flatten ts h
      exact ⟨p, hp, hinside.mono fun _ hu => .tail _ hu⟩

end

/-- What is printed for the tokens of a source is read as the same tokens, if no quote among them stands for
itself. -/
theorem lex_format {src left : Text} {ts : List Token} (hlex : lex src = .ok (ts, left))
    (hquote : ∀ p, Inside (.punct p) ts → p.char ≠ '\'') :
    ∃ again, lex (format ts) = .ok (again, trail [] ts) ∧ strippedAll again = strippedAll ts := by
  obtain ⟨hread, -⟩ := reads_of_lex hlex
  have hnil : Item.Blank [] := by simp [Item.Blank]
  have hblank := blank_trail ts hnil
  have hprinted : format ts = sourceWithSpace (printedAll [] none ts) ++ trail [] ts := printAll_eq ts [] none
  have hreads : Item.Reads (format ts) (flatten (printedAll [] none ts)) (trail [] ts) := by
    have hhalted : Shape.Halted (trail [] ts) := by
      rw [← List.append_nil (trail [] ts)]
      exact Shape.halted_blank hblank fun _ => by intro b r hb; cases hb
    rw [hprinted, ← flatten_source]
    refine hread.respaced (fun space raw hmem => ?_) (respaced_flatten ts none hnil) hhalted
    obtain ⟨p, hp, hinside⟩ := inside_of_mem_flatten ts hmem
    exact hquote p hinside hp
  have hunmarked : Lexeme.unmarked (format ts) = format ts := by
    cases hitems : flatten (printedAll [] none ts) with
    | nil =>
      cases ts with
      | nil => rfl
      | cons t ts => cases t <;> simp [printedAll, printed, flatten, items] at hitems
    | cons i is => exact (hitems ▸ hreads).unmarked_eq
  obtain ⟨again, hagain, hsame⟩ := lex_of_reads (hunmarked.symm ▸ hreads) hblank
  refine ⟨again, hagain, ?_⟩
  rw [← strippedAll_unplacedAll, hsame, strippedAll_unplacedAll, strippedAll_printedAll]

end Token
end Atmark
