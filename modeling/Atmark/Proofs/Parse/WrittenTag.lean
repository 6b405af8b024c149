import Atmark.Proofs.Parse.Expression
import Atmark.Proofs.Token.Spelling

/-! Tags are read back from what is written. A `WrittenTag` is a name and a list of attributes; its text has one
space before each attribute. The text is read as the tokens of the name, of the attributes and of the end
(`WrittenTag.reads`), and the attributes that are read from these tokens are those of the list
(`openingTag_written`): each step that completes one leaves nothing of it behind for the next one. -/
namespace Atmark
open ParseM

/-! ## Tags as they are written -/

/-- What may stand between the words of an attribute name. -/
inductive Joint where
  | dash | colon

def Joint.char : Joint → Char
  | .dash => '-'
  | .colon => ':'

/-- The name of an attribute: words, dashes and colons next to each other, a word first. -/
structure WrittenName where
  first : Word
  others : List (Joint × Option Word)

/-- The value of an attribute: a string in double quotes without quotes and backslashes, an integer, words with
dashes between them, or the marker and a word. -/
inductive WrittenValue where
  | quoted (content : Text) (plain : ∀ b ∈ content, b ≠ 0x22 ∧ b ≠ 0x5C)
  | int (raw : Text) (number : Shape.Number .int raw [])
  | run (first : Word) (others : List Word)
  | marked (word : Word)

structure WrittenAttribute where
  name : WrittenName
  value : Option WrittenValue

/-- The leaves behind the first word of a name. -/
def nameTail (others : List (Joint × Option Word)) : Spelling :=
  others.flatMap fun (j, w) => Shape.mark j.char :: (w.map Word.leaf).toList

/-- The leaves behind the first word of a run. -/
def runTail (others : List Word) : Spelling := others.flatMap fun w => [Shape.mark '-', w.leaf]

def WrittenName.spelling (n : WrittenName) : Spelling := n.first.leaf :: nameTail n.others

def WrittenValue.spelling : WrittenValue → Spelling
  | .quoted content _ => [(.literal .string, 0x22 :: (content ++ [0x22]))]
  | .int raw _ => [(.literal .int, raw)]
  | .run first others => first.leaf :: runTail others
  | .marked word => [Shape.mark '@', word.leaf]

/-- The leaves of an attribute: its name, and if it has a value, an equals sign and the value. -/
def WrittenAttribute.spelling (a : WrittenAttribute) : Spelling :=
  a.name.spelling ++ match a.value with
    | none => []
    | some v => Shape.mark '=' :: v.spelling

/-- The text goes on with a space or with the end of a tag. -/
def TagGoesOn (rest : Text) : Prop := ∃ c r, c ∈ [' ', '>', '/'] ∧ rest = String.utf8EncodeChar c ++ r

/-- The name of a tag: leaves next to each other that can continue such a name. -/
structure WrittenTagName where
  spelling : Spelling
  nonempty : spelling ≠ []
  continues : ∀ x ∈ spelling, x.1 = .ident ∨ x.1 = .literal .int ∨ x.1 = .punct '!' ∨ x.1 = .punct '-'
  fits : ∀ rest, TagGoesOn rest → spelling.Fits rest

/-- An opening tag, closed in itself or not. -/
structure WrittenTag where
  name : WrittenTagName
  attributes : List WrittenAttribute
  slash : Bool

namespace WrittenTag

/-- The leaves of the end of a tag. -/
def endSpelling (slash : Bool) : Spelling := if slash then [Shape.mark '/', Shape.mark '>'] else [Shape.mark '>']

/-- The text of a tag: one space before each attribute. -/
def text (tag : WrittenTag) : Text :=
  utf8 "<" ++ tag.name.spelling.text ++ tag.attributes.flatMap (fun a => utf8 " " ++ a.spelling.text) ++
    utf8 (if tag.slash then "/>" else ">")

/-- The items of a tag. -/
def items (tag : WrittenTag) : List Item :=
  Spelling.items [] (Shape.mark '<' :: tag.name.spelling) ++
    (tag.attributes.flatMap (fun a => a.spelling.items (utf8 " ")) ++ (endSpelling tag.slash).items [])

end WrittenTag

/-! ## The text of a tag is read -/

section Reading
variable {rest : Text}

theorem TagGoesOn.endsWord (h : TagGoesOn rest) : Shape.EndsWord rest := by
  obtain ⟨c, r, hc, rfl⟩ := h
  have hall : [' ', '>', '/'].all (fun c => Text.isWordChar c = false) = true := by decide +kernel
  exact Shape.endsWord_encode (of_decide_eq_true (List.all_eq_true.mp hall c hc)) r

/-- A number that ends with the text ends before a space and before the end of a tag. -/
theorem TagGoesOn.number {kind : LiteralKind} {raw : Text} (h : TagGoesOn rest)
    (hn : Shape.Number kind raw []) : Shape.Number kind raw rest := by
  obtain ⟨b, r, rfl, hnumber, hsign, hpoint⟩ : ∃ b r, rest = b :: r ∧ Shape.isNumberByte b = false ∧
      Shape.isSign b = false ∧ b ≠ 0x2E := by
    obtain ⟨c, r, hc, rfl⟩ := h
    simp only [List.mem_cons, List.not_mem_nil, or_false] at hc
    rcases hc with rfl | rfl | rfl
    · exact ⟨0x20, r, rfl, by decide, by decide, by decide⟩
    · exact ⟨0x3E, r, rfl, by decide, by decide, by decide⟩
    · exact ⟨0x2F, r, rfl, by decide, by decide, by decide⟩
  have hends {hex : Bool} {run : Text} (hrun : Shape.Run hex run []) : Shape.Run hex run (b :: r) := by
    refine ⟨hrun.continues, fun b' after hb => ?_⟩
    obtain ⟨rfl, -⟩ := List.cons.inj hb
    simp [Shape.Continues, hnumber, hsign]
  cases hn with
  | whole hdigit hrun _ =>
    refine .whole hdigit (hends hrun) fun after hafter => ?_
    exact (hpoint (List.cons.inj hafter).1).elim
  | point hwhole hpart hrun hrun' => exact .point hwhole hpart hrun (hends hrun')

theorem nameTail_fits (others : List (Joint × Option Word)) (h : Shape.EndsWord rest) :
    (nameTail others).Fits rest ∧ Shape.EndsWord ((nameTail others).text ++ rest) := by
  induction others with
  | nil => exact ⟨trivial, h⟩
  | cons x others ih =>
    obtain ⟨j, w⟩ := x
    have hj : j.char ∈ Shape.tagMarks := by cases j <;> decide
    have hsplit : nameTail ((j, w) :: others) =
        Shape.mark j.char :: ((w.map Word.leaf).toList ++ nameTail others) := rfl
    rw [hsplit]
    refine ⟨⟨Shape.mark_isLeaf hj _, ?_⟩, ?_⟩
    · cases w with
      | none => exact ih.1
      | some w => exact ⟨w.isLeaf ih.2, ih.1⟩
    · rw [Spelling.text_cons, List.append_assoc]
      exact Shape.endsWord_mark hj _

theorem runTail_fits (others : List Word) (h : Shape.EndsWord rest) :
    (runTail others).Fits rest ∧ Shape.EndsWord ((runTail others).text ++ rest) := by
  induction others with
  | nil => exact ⟨trivial, h⟩
  | cons w others ih =>
    have hdash : '-' ∈ Shape.tagMarks := by decide
    have hsplit : runTail (w :: others) = Shape.mark '-' :: w.leaf :: runTail others := rfl
    rw [hsplit]
    refine ⟨⟨Shape.mark_isLeaf hdash _, w.isLeaf ih.2, ih.1⟩, ?_⟩
    rw [Spelling.text_cons, List.append_assoc]
    exact Shape.endsWord_mark hdash _

theorem WrittenName.fits (n : WrittenName) (h : Shape.EndsWord rest) : n.spelling.Fits rest :=
  ⟨n.first.isLeaf (nameTail_fits n.others h).2, (nameTail_fits n.others h).1⟩

theorem WrittenValue.fits (v : WrittenValue) (h : TagGoesOn rest) : v.spelling.Fits rest := by
  cases v with
  | quoted content plain => exact ⟨.string (by simpa using Shape.Quoted.append plain .nil), trivial⟩
  | int raw number => exact ⟨.number (h.number number), trivial⟩
  | run first others =>
    obtain ⟨hfits, hends⟩ := runTail_fits others h.endsWord
    exact ⟨first.isLeaf hends, hfits⟩
  | marked word => exact ⟨Shape.mark_isLeaf (by decide) _, word.isLeaf h.endsWord, trivial⟩

theorem WrittenAttribute.fits (a : WrittenAttribute) (h : TagGoesOn rest) : a.spelling.Fits rest := by
  obtain ⟨name, value⟩ := a
  cases value with
  | none =>
    unfold spelling
    rw [List.append_nil]
    exact name.fits h.endsWord
  | some v =>
    have hequals : '=' ∈ Shape.tagMarks := by decide
    refine Spelling.Fits.append (name.fits ?_) ⟨Shape.mark_isLeaf hequals _, v.fits h⟩
    rw [Spelling.text_cons, List.append_assoc]
    exact Shape.endsWord_mark hequals _

end Reading

theorem WrittenAttribute.spelling_ne_nil (a : WrittenAttribute) : a.spelling ≠ [] := by
  simp [spelling, WrittenName.spelling]

namespace WrittenTag

/-- The attributes and the end of a tag are read from their text. -/
theorem reads_attributes (attributes : List WrittenAttribute) (slash : Bool) :
    TagGoesOn (attributes.flatMap (fun a => utf8 " " ++ a.spelling.text) ++ (endSpelling slash).text) ∧
    Item.Reads (attributes.flatMap (fun a => utf8 " " ++ a.spelling.text) ++ (endSpelling slash).text)
      (attributes.flatMap (fun a => a.spelling.items (utf8 " ")) ++ (endSpelling slash).items []) [] := by
  induction attributes with
  | nil =>
    have hfits : (endSpelling slash).Fits [] := by
      cases slash
      · exact ⟨Shape.mark_isLeaf (by decide) _, trivial⟩
      · exact ⟨Shape.mark_isLeaf (by decide) _, Shape.mark_isLeaf (by decide) _, trivial⟩
    have hne : endSpelling slash ≠ [] := by cases slash <;> simp [endSpelling]
    refine ⟨?_, by simpa using hfits.reads [] (by simp [Item.Blank]) hne .nil⟩
    cases slash
    · exact ⟨'>', [], by decide, rfl⟩
    · exact ⟨'/', _, by decide, rfl⟩
  | cons a attributes ih =>
    refine ⟨⟨' ', _, by decide, rfl⟩, ?_⟩
    have hread := (a.fits ih.1).reads (utf8 " ") (by unfold Item.Blank; decide +kernel) a.spelling_ne_nil ih.2
    simpa only [List.flatMap_cons, List.append_assoc] using hread

/-- The text of a tag is read as its items. -/
theorem reads (tag : WrittenTag) : Item.Reads tag.text tag.items [] := by
  obtain ⟨hgoesOn, hread⟩ := reads_attributes tag.attributes tag.slash
  have hfits := tag.name.fits _ hgoesOn
  have hname : Spelling.Fits (Shape.mark '<' :: tag.name.spelling) _ := ⟨Shape.mark_isLeaf (by decide) _, hfits⟩
  have hall := hname.reads [] (by simp [Item.Blank]) (by simp) hread
  have htext : tag.text = [] ++ Spelling.text (Shape.mark '<' :: tag.name.spelling) ++
      (tag.attributes.flatMap (fun a => utf8 " " ++ a.spelling.text) ++ (endSpelling tag.slash).text) := by
    rw [WrittenTag.text, Spelling.text_cons]
    cases tag.slash <;> simp [endSpelling, Shape.mark, utf8]
  rw [htext]
  exact hall

end WrittenTag
/-! ## Reading from tokens to tokens -/

/-- The state stands before the tokens, and the compilation is not given up. -/
structure State.Before (s : State) (ts : List Token) : Prop where
  rest : s.stream.rest = ts
  unlimited : s.world.budget = none

namespace ParseM
variable {α β : Type}

/-- Before the tokens `ts` the step returns `a`, and then stands before `us`. -/
def Gives (m : ParseM α) (ts : List Token) (a : α) (us : List Token) : Prop :=
  ∀ s : State, s.Before ts → ∃ u, Returns m s a u ∧ u.Before us

namespace Gives
variable {a : α} {b : β} {ts us vs : List Token}

theorem bind {m : ParseM α} {f : α → ParseM β} (h : m.Gives ts a us) (hf : (f a).Gives us b vs) :
    (m >>= f).Gives ts b vs := by
  intro s hs
  obtain ⟨t, hm, ht⟩ := h s hs
  obtain ⟨u, hu, hu'⟩ := hf t ht
  exact ⟨u, hm.andThen hu, hu'⟩

theorem pure (a : α) : (Pure.pure a : ParseM α).Gives ts a ts := fun s hs => ⟨s, rfl, hs⟩

theorem look {f : List Token → ParseM β} (h : (f ts).Gives ts b us) : (ParseM.rest >>= f).Gives ts b us := by
  rintro s ⟨rfl, hb⟩
  exact h s ⟨rfl, hb⟩

theorem peek {f : Option Token → ParseM β} (h : (f ts.head?).Gives ts b us) : (ParseM.peek >>= f).Gives ts b us := by
  rintro s ⟨rfl, hb⟩
  exact h s ⟨rfl, hb⟩

theorem of_takes {m : ParseM α} (ts : List Token) (h : ∀ s : State, s.Before (ts ++ us) → m.Takes s a ts) :
    m.Gives (ts ++ us) a us := by
  intro s hs
  obtain ⟨u, hu, hpasses⟩ := h s hs
  exact ⟨u, hu, hpasses.rest_eq hs.rest, hpasses.unlimited hs.unlimited⟩

theorem skip {n : Nat} (ts : List Token) (hn : ts.length = n) : (ParseM.skip n).Gives (ts ++ us) () us :=
  of_takes ts fun _ hs => .skip ts hs.rest hn

theorem setLast (pos : Option Position) : (ParseM.setLast pos).Gives ts () ts :=
  of_takes [] fun _ _ => .setLast pos

theorem checkStop : ParseM.checkStop.Gives ts () ts := of_takes [] fun _ hs => .checkStop hs.unlimited

theorem note (message : String) (fields : List (String × Text)) : (ParseM.note message fields).Gives ts () ts :=
  fun _ hs => ⟨_, rfl, hs.rest, hs.unlimited⟩

end Gives
end ParseM

/-! ## Values -/

/-- The value of an attribute stands for a written one. -/
def WrittenValue.Is : WrittenValue → AttrValue → Prop
  | .quoted content _, v => v.fixed = { text := some content, quote := some 0x22 } ∧ v.expr = []
  | .int raw _, v => (∃ pos, v.fixed = { literal := some ⟨pos, [], .int, raw⟩ }) ∧ v.expr = []
  | .run first others, v => (∃ ts, v.fixed = { run := ts } ∧
      Token.flatten ts = Spelling.items [] (first.leaf :: runTail others)) ∧ v.expr = []
  | .marked word, v => v.fixed = {} ∧ ∃ pos, v.expr = [.ident ⟨pos, [], word.text⟩]

/-- The attribute stands for a written one: it has its name and its value, or like it no value. -/
def WrittenAttribute.Is (w : WrittenAttribute) (a : Attribute) : Prop :=
  a.name = w.name.spelling.text ∧ Option.Rel WrittenValue.Is w.value a.value

/-- The tokens go on with white space or with the end of a tag. -/
def Token.TagGoesOn (ts : List Token) : Prop :=
  ∃ t us, ts = t :: us ∧ (t.glued = false ∨ t.isPunct '>' = true ∨ t.isPunct '/' = true)

namespace Token.TagGoesOn
variable {ts : List Token}

theorem takeWhile_run (h : TagGoesOn ts) : ts.takeWhile continuesRun = [] := by
  obtain ⟨t, us, rfl, h⟩ := h
  refine List.takeWhile_cons_of_neg ?_
  rcases h with h | h | h
  · simp [continuesRun, h]
  · rw [eq_punct h]
    simp [continuesRun]
  · rw [eq_punct h]
    simp [continuesRun]

/-- No expression goes on there. -/
theorem ends (h : TagGoesOn ts) : Selector.Ends ts ∧ Tools.postfixAt? ts = none := by
  obtain ⟨t, us, rfl, h⟩ := h
  rcases h with h | h | h
  · refine ⟨fun sel vs heq => ?_, ?_⟩
    · obtain ⟨t', ts', htokens, hspace, -⟩ := sel.tokens_eq_cons
      rw [htokens] at heq
      obtain ⟨rfl, -⟩ := List.cons.inj heq
      simp [glued, hspace] at h
    · cases t with
      | punct p =>
        have hspace : p.space.isEmpty = false := h
        simp [hspace]
      | _ => rfl
  all_goals
    rw [eq_punct h]
    refine ⟨fun sel vs heq => ?_, by simp⟩
    cases sel <;> simp [Selector.tokens] at heq

end Token.TagGoesOn

namespace Tools
variable {t : Tools} {tag attr : Text} {ts after : List Token}

theorem expression_gives {id : Ident} (h : Token.TagGoesOn after) :
    t.expression.Gives (.ident id :: after) [.ident id] after := by
  obtain ⟨hends, hnone⟩ := h.ends
  have hselectors : (t.selectors after).Gives after [] after := by
    intro s hs
    have hdone := selectors_done (t := t) hs.unlimited hends
    unfold Leads at hdone
    cases hrun : t.selectors after s with
    | ok ns u =>
      rw [hrun] at hdone
      obtain ⟨-, rfl, hpasses⟩ := hdone
      exact ⟨u, hrun, hpasses.rest_eq hs.rest, hpasses.unlimited hs.unlimited⟩
    | error e u =>
      rw [hrun] at hdone
      obtain ⟨p, hp, -⟩ := hdone
      rw [hnone] at hp
      cases hp
  refine .look (.bind (.skip [.ident id] rfl) (.look ?_))
  exact hselectors.bind (.pure _)

/-- The tokens behind the first word of a run go on with the run. -/
theorem continuesRun_of_runTail {others : List Word} (hts : Token.flatten ts = (runTail others).items [])
    {tok : Token} (htok : tok ∈ ts) : tok.continuesRun = true := by
  obtain ⟨x, hx, hitems⟩ := Spelling.exists_leaf hts htok
  have hglued : tok.glued = true := by simp [Token.glued, (Token.brief_of_items hitems).1]
  obtain ⟨w, -, hx⟩ := List.mem_flatMap.mp hx
  simp only [List.mem_cons, List.not_mem_nil, or_false] at hx
  rcases hx with rfl | rfl
  · obtain ⟨pos, rfl⟩ := Token.items_eq_leaf hitems
    simp [Token.continuesRun, hglued]
  · obtain ⟨pos, rfl⟩ := Token.items_eq_leaf hitems
    simp [Token.continuesRun, hglued]

/-- A written value is read, whatever the names of the tag and of the attribute are. -/
theorem attrValue_gives (t : Tools) (tag attr : Text) {v : WrittenValue}
    (hts : Token.flatten ts = v.spelling.items []) (hafter : Token.TagGoesOn after) : ∃ tok us a, ts = tok :: us ∧
      (t.attrValue tag attr tok (us ++ after)).Gives (ts ++ after) a after ∧ v.Is a := by
  cases v with
  | quoted content plain =>
    obtain ⟨tok, us, rfl, htok, hus⟩ := Token.flatten_eq_leaf hts
    obtain ⟨pos, rfl⟩ := Token.items_eq_leaf htok
    obtain rfl := Token.flatten_eq_nil hus
    let l : Literal := ⟨pos, [], .string, 0x22 :: (content ++ [0x22])⟩
    have hcontent : l.content = content := by simp [l, Literal.content]
    have hstatic : ({ text := some l.content, quote := some 0x22 } : StaticValue) =
        { text := some content, quote := some 0x22 } := by rw [hcontent]
    refine ⟨_, _, ⟨pos, { text := some l.content, quote := some 0x22 }, []⟩, rfl, ?_, hstatic, rfl⟩
    exact .bind (.skip [_] rfl) (.pure _)
  | int raw number =>
    obtain ⟨tok, us, rfl, htok, hus⟩ := Token.flatten_eq_leaf hts
    obtain ⟨pos, rfl⟩ := Token.items_eq_leaf htok
    obtain rfl := Token.flatten_eq_nil hus
    refine ⟨_, _, ⟨pos, { literal := some ⟨pos, [], .int, raw⟩ }, []⟩, rfl, ?_, ⟨pos, rfl⟩, rfl⟩
    exact .bind (.skip [_] rfl) (.pure _)
  | run first others =>
    obtain ⟨tok, us, rfl, htok, hus⟩ := Token.flatten_eq_leaf hts
    obtain ⟨pos, rfl⟩ := Token.items_eq_leaf htok
    refine ⟨_, us, ⟨pos, { run := .ident ⟨pos, [], first.text⟩ :: us }, []⟩, rfl, ?_, ⟨_, rfl, hts⟩, rfl⟩
    have hrun : (us ++ after).takeWhile Token.continuesRun = us := by
      rw [List.takeWhile_append_of_pos fun x hx => continuesRun_of_runTail hus hx, hafter.takeWhile_run,
        List.append_nil]
    have hvalue : (unquotedValue (.ident ⟨pos, [], first.text⟩) (us ++ after)).Gives
        (.ident ⟨pos, [], first.text⟩ :: us ++ after) { run := .ident ⟨pos, [], first.text⟩ :: us } after := by
      unfold unquotedValue
      rw [hrun]
      exact .bind (.skip _ rfl) (.pure _)
    exact hvalue.bind (.pure _)
  | marked word =>
    obtain ⟨tok, us, rfl, htok, hus⟩ := Token.flatten_eq_leaf hts
    obtain ⟨pos, rfl⟩ := Token.items_eq_leaf htok
    obtain ⟨word', us', rfl, hword, hus'⟩ := Token.flatten_eq_leaf hus
    obtain ⟨wordPos, rfl⟩ := Token.items_eq_leaf hword
    obtain rfl := Token.flatten_eq_nil hus'
    refine ⟨_, _, ⟨pos, {}, [.ident ⟨wordPos, [], word.text⟩]⟩, rfl, ?_, rfl, wordPos, rfl⟩
    have hexpression : (t.valueExpression ⟨pos, [], '@'⟩ attr).Gives
        (.punct ⟨pos, [], '@'⟩ :: .ident ⟨wordPos, [], word.text⟩ :: after)
        [.ident ⟨wordPos, [], word.text⟩] after := by
      refine .bind (.skip [_] rfl) (.peek ?_)
      exact expression_gives hafter
    exact hexpression.bind (.bind (.note _ _) (.pure _))

/-! ## Attributes -/

section Attributes
variable {lt : Option Position} {n : Nat} {r : TagReading} {out : TagReading × TagEnd} {us : List Token}

/-- With more steps than there are tokens, the attributes are read from `ts` up to `us`. -/
def AttributesGive (t : Tools) (lt : Option Position) (tag : Text) (r : TagReading) (ts : List Token)
    (out : TagReading × TagEnd) (us : List Token) : Prop :=
  ∀ n, ts.length < n → (t.attributesWithin lt tag n r .name).Gives ts out us

/-- The token is part of an attribute name. -/
def namesAttribute (tok : Token) : Bool := tok.isIdent || tok.isPunct '-' || tok.isPunct ':'

theorem attributesGive_name {tok : Token} (h : namesAttribute tok = true)
    (hmore : t.AttributesGive lt tag (r.addKey tok) ts out us) : t.AttributesGive lt tag r (tok :: ts) out us := by
  intro n hn
  obtain ⟨n, rfl⟩ : ∃ k, n = k + 1 := ⟨n - 1, by simp at hn; omega⟩
  have hrest := hmore n (by simpa using hn)
  refine .bind .checkStop (.look (.bind (.setLast _) ?_))
  have hstep : (do skip 1; t.attributesWithin lt tag n (r.addKey tok) .name : ParseM _).Gives (tok :: ts) out us :=
    .bind (.skip [tok] rfl) hrest
  cases tok with
  | ident id => exact hstep
  | punct p =>
    simp only [namesAttribute, Token.isIdent, Token.isPunct, Bool.false_or, Bool.or_eq_true,
      decide_eq_true_eq] at h
    rcases h with h | h <;> simpa [h] using hstep
  | _ => simp [namesAttribute, Token.isIdent, Token.isPunct] at h

/-- Tokens next to the name that is being read go on with it. -/
theorem attributesGive_tail {k : AttrKey} {xs : List Token} (hkey : r.key = some k) (hquoted : k.quoted = none)
    (hxs : ∀ x ∈ xs, x.glued = true ∧ namesAttribute x = true)
    (hmore : t.AttributesGive lt tag { r with key := some { k with text := k.text ++ xs.flatMap Token.brief } }
      ts out us) : t.AttributesGive lt tag r (xs ++ ts) out us := by
  induction xs generalizing r k with
  | nil =>
    rw [List.flatMap_nil, List.append_nil, ← hkey] at hmore
    exact hmore
  | cons x xs ih =>
    obtain ⟨hglued, hname⟩ := hxs x (.head _)
    refine attributesGive_name hname ?_
    have hadd : r.addKey x = { r with key := some { k with text := k.text ++ x.brief } } := by
      simp [TagReading.addKey, hkey, hglued, hquoted]
    rw [hadd]
    refine ih (k := { k with text := k.text ++ x.brief }) rfl hquoted (fun y hy => hxs y (.tail _ hy)) ?_
    simpa [List.append_assoc] using hmore

theorem namesAttribute_of_nameTail {others : List (Joint × Option Word)} {xs : List Token}
    (hxs : Token.flatten xs = (nameTail others).items []) {x : Token} (hx : x ∈ xs) :
    x.glued = true ∧ namesAttribute x = true := by
  obtain ⟨y, hy, hitems⟩ := Spelling.exists_leaf hxs hx
  refine ⟨by simp [Token.glued, (Token.brief_of_items hitems).1], ?_⟩
  obtain ⟨⟨j, w⟩, -, hy⟩ := List.mem_flatMap.mp hy
  simp only [List.mem_cons, Option.mem_toList, Option.map_eq_some_iff] at hy
  rcases hy with rfl | ⟨w, -, rfl⟩
  · obtain ⟨pos, rfl⟩ := Token.items_eq_leaf hitems
    cases j <;> simp [namesAttribute, Token.isPunct, Token.isIdent, Joint.char]
  · obtain ⟨pos, rfl⟩ := Token.items_eq_leaf hitems
    rfl

/-- A name after white space is read as a whole, and nothing of what was read before is in it. -/
theorem attributesGive_writtenName (t : Tools) (lt : Option Position) (tag : Text) (r : TagReading)
    {w : WrittenName} {xs : List Token} (hxs : Token.flatten xs = w.spelling.items (utf8 " ")) : ∃ pos, ∀ {ts out us}, t.AttributesGive lt tag
      { r.withoutValue with key := some ⟨w.spelling.text, none, utf8 " ", pos⟩ } ts out us →
      t.AttributesGive lt tag r (xs ++ ts) out us := by
  obtain ⟨tok, xs, rfl, htok, hxs'⟩ := Token.flatten_eq_leaf hxs
  obtain ⟨pos, rfl⟩ := Token.items_eq_leaf htok
  refine ⟨pos, fun {ts out us} hmore => attributesGive_name rfl ?_⟩
  have hadd : r.addKey (.ident ⟨pos, utf8 " ", w.first.text⟩) =
      { r.withoutValue with key := some ⟨w.first.text, none, utf8 " ", pos⟩ } := by
    have hspaced : (Token.ident ⟨pos, utf8 " ", w.first.text⟩).glued = false := rfl
    unfold TagReading.addKey
    rw [hspaced]
    cases r.key <;> rfl
  rw [hadd]
  refine attributesGive_tail rfl rfl (fun x hx => namesAttribute_of_nameTail hxs' hx) ?_
  rw [Spelling.flatMap_brief hxs']
  exact hmore

theorem attributesGive_value {k : AttrKey} {pos : Option Position} {tok : Token} {xs : List Token} {v : AttrValue}
    (hkey : r.key = some k) (hvalue : (t.attrValue tag k.text tok (xs ++ ts)).Gives (tok :: xs ++ ts) v ts)
    (hmore : t.AttributesGive lt tag (r.withValue k pos v) ts out us) :
    t.AttributesGive lt tag r (.punct ⟨pos, [], '='⟩ :: tok :: xs ++ ts) out us := by
  intro n hn
  obtain ⟨n, rfl⟩ : ∃ k, n = k + 2 := ⟨n - 2, by simp at hn; omega⟩
  have hrest := hmore n (by simp at hn; omega)
  have hfocus : (t.attributesWithin lt tag (n + 1) r (.value k pos)).Gives (tok :: xs ++ ts) out us :=
    .bind .checkStop (.look (.bind (.setLast _) (hvalue.bind hrest)))
  refine .bind .checkStop (.look (.bind (.setLast _) ?_))
  simpa [hkey] using Gives.bind (.skip [_] rfl) hfocus

/-- A written attribute is read, and what is being read before it is complete. -/
theorem attributesGive_attribute (t : Tools) (lt : Option Position) (tag : Text) {w : WrittenAttribute}
    {xs : List Token} (hxs : Token.flatten xs = w.spelling.items (utf8 " ")) (hts : Token.TagGoesOn ts) (r : TagReading) :
    ∃ a r', w.Is a ∧ r'.withoutValue.attributes = a :: r.withoutValue.attributes ∧
      ∀ {out us}, t.AttributesGive lt tag r' ts out us → t.AttributesGive lt tag r (xs ++ ts) out us := by
  obtain ⟨name, value⟩ := w
  cases value with
  | none =>
    have hname : Token.flatten xs = name.spelling.items (utf8 " ") := by
      simpa [WrittenAttribute.spelling] using hxs
    obtain ⟨pos, hgive⟩ := attributesGive_writtenName t lt tag r hname
    exact ⟨⟨name.spelling.text, none⟩,
      { r.withoutValue with key := some ⟨name.spelling.text, none, utf8 " ", pos⟩ }, ⟨rfl, .none⟩, rfl, fun h => hgive h⟩
  | some v =>
    have hnonempty : name.spelling ≠ [] := by simp [WrittenName.spelling]
    have hsplit : Token.flatten xs = name.spelling.items (utf8 " ") ++
        (.leaf [] (.punct '=') (String.utf8EncodeChar '=') :: v.spelling.items []) := by
      rw [hxs, WrittenAttribute.spelling, Spelling.items_append _ hnonempty]
      rfl
    obtain ⟨names, xs, rfl, hnames, hxs₁⟩ := Spelling.exists_tokens hsplit
    obtain ⟨equals, ys, rfl, hequals, hys⟩ := Token.flatten_eq_leaf hxs₁
    obtain ⟨eqPos, rfl⟩ := Token.items_eq_leaf hequals
    obtain ⟨pos, hgive⟩ := attributesGive_writtenName t lt tag r hnames
    obtain ⟨tok, zs, a, rfl, hvalue, hv⟩ :=
      attrValue_gives t tag name.spelling.text hys hts
    let k : AttrKey := ⟨name.spelling.text, none, utf8 " ", pos⟩
    let r' : TagReading := { r.withoutValue with key := some k }
    refine ⟨⟨name.spelling.text, some a⟩, r'.withValue k eqPos a, ⟨rfl, .some hv⟩, rfl, fun h => ?_⟩
    rw [List.append_assoc]
    exact hgive (attributesGive_value (r := r') rfl hvalue h)

/-- The end of a tag is read, and the name that is being read has no value. -/
theorem attributesGive_end (t : Tools) (lt : Option Position) (tag : Text) (us : List Token) {slash : Bool}
    {xs : List Token} (hxs : Token.flatten xs = (WrittenTag.endSpelling slash).items []) (r : TagReading) :
    ∃ e : TagEnd, e.slash.isSome = slash ∧ t.AttributesGive lt tag r (xs ++ us) (r.withoutValue, e) us := by
  cases slash with
  | false =>
    obtain ⟨gt, none, rfl, hgt, hnone⟩ := Token.flatten_eq_leaf hxs
    obtain ⟨pos, rfl⟩ := Token.items_eq_leaf hgt
    obtain rfl := Token.flatten_eq_nil hnone
    refine ⟨⟨none, [], pos⟩, rfl, fun n hn => ?_⟩
    obtain ⟨n, rfl⟩ : ∃ k, n = k + 1 := ⟨n - 1, by simp at hn; omega⟩
    exact .bind .checkStop (.look (.bind (.setLast _) (.bind (.skip [_] rfl) (.pure _))))
  | true =>
    obtain ⟨slash, ys, rfl, hslash, hys⟩ := Token.flatten_eq_leaf hxs
    obtain ⟨pos, rfl⟩ := Token.items_eq_leaf hslash
    obtain ⟨gt, none, rfl, hgt, hnone⟩ := Token.flatten_eq_leaf hys
    obtain ⟨gtPos, rfl⟩ := Token.items_eq_leaf hgt
    obtain rfl := Token.flatten_eq_nil hnone
    refine ⟨⟨some ⟨pos, [], '/'⟩, [], pos⟩, rfl, fun n hn => ?_⟩
    obtain ⟨n, rfl⟩ : ∃ k, n = k + 1 := ⟨n - 1, by simp at hn; omega⟩
    exact .bind .checkStop (.look (.bind (.setLast _) (.bind (.skip [_, _] rfl) (.pure _))))

theorem tagGoesOn_of_end {slash : Bool} {xs : List Token}
    (hxs : Token.flatten xs = (WrittenTag.endSpelling slash).items []) : Token.TagGoesOn (xs ++ us) := by
  cases slash with
  | false =>
    obtain ⟨gt, xs, rfl, hgt, -⟩ := Token.flatten_eq_leaf hxs
    obtain ⟨pos, rfl⟩ := Token.items_eq_leaf hgt
    exact ⟨_, _, rfl, .inr (.inl rfl)⟩
  | true =>
    obtain ⟨slash, xs, rfl, hslash, -⟩ := Token.flatten_eq_leaf hxs
    obtain ⟨pos, rfl⟩ := Token.items_eq_leaf hslash
    exact ⟨_, _, rfl, .inr (.inr rfl)⟩

theorem tagGoesOn_of_attribute {w : WrittenAttribute} {xs : List Token}
    (hxs : Token.flatten xs = w.spelling.items (utf8 " ")) : Token.TagGoesOn (xs ++ us) := by
  obtain ⟨tok, xs, rfl, htok, -⟩ := Token.flatten_eq_leaf hxs
  refine ⟨tok, _, rfl, .inl ?_⟩
  rw [Token.glued, (Token.brief_of_items htok).1]
  rfl

/-- The attributes of a list are read one after another, in their order, and then the end of the tag. -/
theorem attributesGive_list (t : Tools) (lt : Option Position) (tag : Text) (us : List Token)
    {ws : List WrittenAttribute} {slash : Bool} {xs : List Token}
    (hxs : Token.flatten xs = ws.flatMap (fun a => a.spelling.items (utf8 " ")) ++
      (WrittenTag.endSpelling slash).items []) (r : TagReading) :
    Token.TagGoesOn (xs ++ us) ∧ ∃ as out, t.AttributesGive lt tag r (xs ++ us) out us ∧
      out.1.attributes = as.reverse ++ r.withoutValue.attributes ∧ List.Forall₂ WrittenAttribute.Is ws as ∧
      out.2.slash.isSome = slash := by
  induction ws generalizing r xs with
  | nil =>
    obtain ⟨e, he, hgive⟩ := attributesGive_end t lt tag us hxs r
    exact ⟨tagGoesOn_of_end hxs, [], (r.withoutValue, e), hgive, rfl, .nil, he⟩
  | cons w ws ih =>
    rw [List.flatMap_cons, List.append_assoc] at hxs
    obtain ⟨xs, ys, rfl, hxs, hys⟩ := Spelling.exists_tokens hxs
    obtain ⟨hgoesOn, -⟩ := ih hys r
    rw [List.append_assoc]
    obtain ⟨a, r', ha, hr', hgive⟩ := attributesGive_attribute t lt tag hxs hgoesOn r
    obtain ⟨-, as, out, hout, hattributes, has, hslash⟩ := ih hys r'
    refine ⟨tagGoesOn_of_attribute hxs, a :: as, out, hgive hout, ?_, .cons ha has, hslash⟩
    rw [hattributes, hr', List.reverse_cons, List.append_assoc]
    rfl

end Attributes

end Tools

/-! ## Tags -/

/-- The tokens of a name are taken as the name, and none of those behind it. -/
theorem Token.TagGoesOn.name_append {xs ys : List Token} (hys : TagGoesOn ys) (hne : xs ≠ [])
    (hxs : ∀ x ∈ xs, x.glued = true ∧ x.continuesTagName = true) : tagNameTokens (xs ++ ys) = xs := by
  have hstop : gluedTagName ys = [] := by
    obtain ⟨tok, us, rfl, h⟩ := hys
    rcases h with h | h | h
    · simp [gluedTagName, h]
    all_goals
      rw [Token.eq_punct h]
      simp [gluedTagName, Token.continuesTagName, Token.startsTagName]
  have hglued {xs : List Token} (hxs : ∀ x ∈ xs, x.glued = true ∧ x.continuesTagName = true) :
      gluedTagName (xs ++ ys) = xs := by
    induction xs with
    | nil => exact hstop
    | cons x xs ih =>
      obtain ⟨hx, hx'⟩ := hxs x (.head _)
      simp [gluedTagName, hx, hx', ih fun y hy => hxs y (.tail _ hy)]
  cases xs with
  | nil => exact (hne rfl).elim
  | cons x xs => simp [tagNameTokens, hxs x (.head _), hglued fun y hy => hxs y (.tail _ hy)]

theorem WrittenTagName.continues_tokens (name : WrittenTagName) {xs : List Token}
    (hxs : Token.flatten xs = name.spelling.items []) {x : Token} (hx : x ∈ xs) :
    x.glued = true ∧ x.continuesTagName = true := by
  obtain ⟨⟨s, raw⟩, hy, hitems⟩ := Spelling.exists_leaf hxs hx
  refine ⟨by simp [Token.glued, (Token.brief_of_items hitems).1], ?_⟩
  rcases name.continues _ hy with rfl | rfl | rfl | rfl
  · obtain ⟨pos, rfl⟩ := Token.items_eq_leaf hitems
    rfl
  · obtain ⟨pos, rfl⟩ := Token.items_eq_leaf hitems
    rfl
  all_goals
    obtain ⟨pos, rfl⟩ := Token.items_eq_leaf hitems
    simp [Token.continuesTagName, Token.startsTagName]

namespace Tools

/-- A written tag has tokens, and before any others the tag is read from them: its name, the attributes of the
list in their order, each with its name and its value, and its end. -/
theorem openingTag_written (t : Tools) (tag : WrittenTag) :
    ∃ tokens, Token.lex tag.text = .ok (tokens, []) ∧ ∀ (s : State) (lt : Punct) (after : List Token),
      s.world.budget = none → s.stream.rest = tokens ++ after →
      ∃ name reading stop u, Returns (t.openingTag lt) s (name, reading, stop) u ∧ u.stream.rest = after ∧
        tagName name = tag.name.spelling.text ∧
        List.Forall₂ WrittenAttribute.Is tag.attributes reading.attributes.reverse ∧
        stop.slash.isSome = tag.slash := by
  have hbalanced : Item.Balanced tag.items := by
    refine Spelling.balanced _ ?_
    induction tag.attributes with
    | nil => simpa using Spelling.balanced (WrittenTag.endSpelling tag.slash) .nil
    | cons a attributes ih =>
      rw [List.flatMap_cons, List.append_assoc]
      exact Spelling.balanced _ ih
  have hunmarked : Lexeme.unmarked tag.text = tag.text := rfl
  obtain ⟨tokens, hlex, hflatten⟩ := Token.exists_lex (hunmarked ▸ tag.reads) (by simp [Item.Blank]) hbalanced
  refine ⟨tokens, hlex, fun s lt after hb hs => ?_⟩
  obtain ⟨xs, ys, rfl, hxs, hys⟩ := Spelling.exists_tokens hflatten
  obtain ⟨tok, names, rfl, -, hnames⟩ := Token.flatten_eq_leaf hxs
  obtain ⟨hgoesOn, as, out, hout, hattributes, has, hslash⟩ :=
    attributesGive_list t lt.pos (tagName names) after hys {}
  have hne : names ≠ [] := by
    rintro rfl
    cases hspelling : tag.name.spelling with
    | nil => exact tag.name.nonempty hspelling
    | cons x sp =>
      rw [hspelling] at hnames
      cases hnames
  have hgives {zs : List Token} (hzs : zs = names ++ (ys ++ after)) :
      (t.openingTag lt).Gives (tok :: zs) (names, out.1, out.2) after := by
    have hname : tagNameTokens zs = names :=
      hzs ▸ hgoesOn.name_append hne fun x hx => tag.name.continues_tokens hnames hx
    refine .bind (.skip [tok] rfl) (.look ?_)
    dsimp only
    rw [hname, hzs]
    refine .bind (.skip _ rfl) (.bind ?_ (.pure _))
    exact .look (hout _ (Nat.lt_succ_self _))
  obtain ⟨u, hret, hu⟩ := hgives rfl s ⟨by simpa using hs, hb⟩
  refine ⟨names, out.1, out.2, u, hret, hu.rest, ?_, ?_, hslash⟩
  · exact Spelling.flatMap_brief hnames
  · rw [hattributes]
    simpa [TagReading.withoutValue] using has

end Tools

/-! ### A tag with all forms of values -/

/-- A word of one letter. -/
def Word.ofLetter (c : Char) (h : Text.isLetter c = true) : Word := ⟨c, [], .inr h, by simp⟩

/-- A word is the name of a tag. -/
def WrittenTagName.ofWord (w : Word) : WrittenTagName where
  spelling := [w.leaf]
  nonempty := by simp
  continues x hx := by
    obtain rfl := List.mem_singleton.mp hx
    exact .inl rfl
  fits _ h := ⟨w.isLeaf h.endsWord, trivial⟩

theorem Shape.number_twelve : Number .int (utf8 "12") [] := by
  have hrun : Run (startsHex (utf8 "12")) (utf8 "12") [] := by
    refine ⟨fun before b after h => .inl ?_, nofun⟩
    have hmem : b ∈ utf8 "12" := h ▸ by simp
    have hall : (utf8 "12").all isNumberByte = true := by decide
    exact List.all_eq_true.mp hall b hmem
  exact .whole ⟨0x31, [0x32], rfl, by decide⟩ hrun nofun

/-- The tag `<a a-a:="x y" a a=12 a=a-a a=@a/>`. -/
def sampleTag : WrittenTag :=
  let a := Word.ofLetter 'a' (by decide +kernel)
  { name := .ofWord a
    attributes := [⟨⟨a, [(.dash, some a), (.colon, none)]⟩, some (.quoted (utf8 "x y") (by decide +kernel))⟩,
      ⟨⟨a, []⟩, none⟩, ⟨⟨a, []⟩, some (.int (utf8 "12") Shape.number_twelve)⟩, ⟨⟨a, []⟩, some (.run a [a])⟩,
      ⟨⟨a, []⟩, some (.marked a)⟩]
    slash := true }

theorem Tools.openingTag_written_sample :
    sampleTag.text = utf8 "<a a-a:=\"x y\" a a=12 a=a-a a=@a/>" ∧
    ∃ tokens, Token.lex sampleTag.text = .ok (tokens, []) ∧ ∃ name reading stop u,
      Returns (callTools.openingTag ⟨none, [], '<'⟩)
        { world := {}, path := [], includers := [], stream := .ofTokens tokens } (name, reading, stop) u ∧
      u.stream.rest = [] ∧ List.Forall₂ WrittenAttribute.Is sampleTag.attributes reading.attributes.reverse := by
  obtain ⟨tokens, hlex, hread⟩ := openingTag_written callTools sampleTag
  obtain ⟨name, reading, stop, u, hret, hrest, -, hattributes, -⟩ :=
    hread { world := {}, path := [], includers := [], stream := .ofTokens tokens } ⟨none, [], '<'⟩ [] rfl
      (by simp [Stream.ofTokens])
  exact ⟨by decide +kernel, tokens, hlex, name, reading, stop, u, hret, hrest, hattributes⟩

end Atmark
