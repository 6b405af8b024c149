import Atmark.Directive.Flow
import Atmark.Proofs.Token.Positions
import Atmark.Proofs.Token.Unplaced

/-! Reading tokens and more tokens alongside. Where white space with a line break comes before the tokens that
only the second list has, whatever looks at tokens without white space between them sees the same in both. -/
namespace Atmark

theorem Text.breaksLine_ne_nil {t : Text} (h : breaksLine t = true) : t ≠ [] := by
  rintro rfl
  cases h

namespace Token

/-- Every token at any depth has a position. -/
def AllPlaced (ts : List Token) : Prop := ∀ t, Inside t ts → t.pos.isSome = true

namespace AllPlaced
variable {t : Token} {ts us : List Token}

theorem nil : AllPlaced [] := by
  intro t ht
  cases ht with
  | here hmem => cases hmem
  | within hmem => cases hmem

theorem mono (h : AllPlaced ts) (hs : ∀ u ∈ us, u ∈ ts) : AllPlaced us := fun u hu => h u (hu.mono hs)

theorem drop (h : AllPlaced ts) (n : Nat) : AllPlaced (ts.drop n) := h.mono fun _ hu => List.mem_of_mem_drop hu

theorem head (h : AllPlaced (t :: ts)) : t.pos.isSome = true := h t (.here (.head _))

theorem group {f : Frame} (h : AllPlaced ts) (hg : .group f us ∈ ts) : AllPlaced us :=
  fun u hu => h u (.within hg hu)

end AllPlaced

theorem allPlaced_of_lex {src left : Text} {ts : List Token} (h : lex src = .ok (ts, left)) : AllPlaced ts := by
  intro t ht
  have hspanned := lex_spanned src
  rw [h] at hspanned
  obtain ⟨p, hp, -⟩ := hspanned t ht
  rw [hp]
  rfl

/-- White space with a line break comes before the tokens. -/
def Parted (ts : List Token) : Prop := ∀ t ∈ ts.head?, Text.breaksLine t.space = true

theorem Parted.nil : Parted [] := nofun

theorem Same.of_cons {t u : Token} {ts us : List Token} (h : unplacedAll (u :: us) = unplacedAll (t :: ts)) :
    Same t u ∧ unplacedAll us = unplacedAll ts := List.cons.inj h

theorem Same.single {t u : Token} (h : Same t u) : unplacedAll [u] = unplacedAll [t] := congrArg (· :: []) h

/-- A token and the same token somewhere else. -/
inductive Moved : Token → Token → Prop
  | ident (id : Ident) (pos : Option Position) : Moved (.ident id) (.ident { id with pos })
  | literal (l : Literal) (pos : Option Position) : Moved (.literal l) (.literal { l with pos })
  | punct (p : Punct) (pos : Option Position) : Moved (.punct p) (.punct { p with pos })
  | group (f : Frame) (pos : Option Position) {cs ds : List Token} :
      unplacedAll ds = unplacedAll cs → Moved (.group f cs) (.group { f with pos } ds)

theorem Same.moved {t u : Token} (h : Same t u) : Moved t u := by
  cases t with
  | ident =>
    obtain ⟨_, rfl⟩ := h.ident
    exact .ident ..
  | literal =>
    obtain ⟨_, rfl⟩ := h.literal
    exact .literal ..
  | punct =>
    obtain ⟨_, rfl⟩ := h.punct
    exact .punct ..
  | group =>
    obtain ⟨_, _, rfl, hds⟩ := h.group
    exact .group _ _ hds

/-- A token and the same token somewhere else, after other white space. -/
inductive Shifted : Token → Token → Prop
  | ident (id : Ident) (pos : Option Position) (space : Text) : Shifted (.ident id) (.ident { id with pos, space })
  | literal (l : Literal) (pos : Option Position) (space : Text) :
    Shifted (.literal l) (.literal { l with pos, space })
  | punct (p : Punct) (pos : Option Position) (space : Text) : Shifted (.punct p) (.punct { p with pos, space })
  | group (f : Frame) (pos : Option Position) (space : Text) {cs ds : List Token} :
      unplacedAll ds = unplacedAll cs → Shifted (.group f cs) (.group { f with pos, space } ds)

theorem Moved.shifted {t u : Token} (h : Moved t u) : Shifted t u := by
  cases h with
  | ident id pos => exact .ident id pos id.space
  | literal l pos => exact .literal l pos l.space
  | punct p pos => exact .punct p pos p.space
  | group f pos hds => exact .group f pos f.space hds

theorem Same.shifted {t u : Token} {space : Text} (h : Same (t.withSpace space) (u.withSpace space)) :
    Shifted t u := by
  cases t with
  | ident id =>
    cases u with
    | ident v =>
      obtain ⟨_, _, _⟩ := v
      obtain ⟨-, -, hname⟩ := Ident.mk.inj (Token.ident.inj h)
      cases hname
      exact .ident id _ _
    | _ => cases h
  | literal l =>
    cases u with
    | literal v =>
      obtain ⟨_, _, _, _⟩ := v
      obtain ⟨-, -, hkind, hraw⟩ := Literal.mk.inj (Token.literal.inj h)
      cases hkind
      cases hraw
      exact .literal l _ _
    | _ => cases h
  | punct p =>
    cases u with
    | punct v =>
      obtain ⟨_, _, _⟩ := v
      obtain ⟨-, -, hchar⟩ := Punct.mk.inj (Token.punct.inj h)
      cases hchar
      exact .punct p _ _
    | _ => cases h
  | group f cs =>
    cases u with
    | group g ds =>
      obtain ⟨_, _, _, _⟩ := g
      obtain ⟨hframe, hcs⟩ := Token.group.inj h
      obtain ⟨-, -, hdelim, hclose⟩ := Frame.mk.inj hframe
      cases hdelim
      cases hclose
      exact .group f _ _ hcs
    | _ => cases h

theorem sourceWithSpace_congr {ts us : List Token} (h : unplacedAll us = unplacedAll ts) :
    sourceWithSpace us = sourceWithSpace ts := by
  rw [← sourceWithSpace_unplacedAll, h, sourceWithSpace_unplacedAll]

theorem sourceOf_congr {ts us : List Token} (h : unplacedAll us = unplacedAll ts) : sourceOf us = sourceOf ts := by
  cases ts with
  | nil =>
    cases us with
    | nil => rfl
    | cons u us => cases h
  | cons t ts =>
    cases us with
    | nil => cases h
    | cons u us =>
      obtain ⟨hu, hus⟩ := Same.of_cons h
      rw [sourceOf, sourceOf, hu.source, sourceWithSpace_congr hus]

theorem tagName_congr {ts us : List Token} (h : unplacedAll us = unplacedAll ts) : tagName us = tagName ts := by
  have hbrief (vs : List Token) : tagName (unplacedAll vs) = tagName vs := by
    rw [tagName, tagName, unplacedAll_eq_map, List.flatMap_map]
    exact congrArg (List.flatMap · vs) (funext brief_unplaced)
  rw [← hbrief, h, hbrief]

theorem length_congr {ts us : List Token} (h : unplacedAll us = unplacedAll ts) :
    us.length = ts.length := by
  rw [← length_unplacedAll us, h, length_unplacedAll]

theorem isEmpty_congr {ts us : List Token} (h : unplacedAll us = unplacedAll ts) : us.isEmpty = ts.isEmpty := by
  rw [Bool.eq_iff_iff, List.isEmpty_iff_length_eq_zero, List.isEmpty_iff_length_eq_zero, length_congr h]

namespace Alongside
variable {after ts us : List Token} {t : Token}

theorem of_eq (h : unplacedAll us = unplacedAll ts) : Alongside [] ts us := by
  rw [Alongside, h, List.append_nil]

theorem eq (h : Alongside [] ts us) : unplacedAll us = unplacedAll ts := by
  rw [h, List.append_nil]

/-- A closing apostrophe that is found among the first tokens is found there by both. -/
theorem untilApostrophe (h : Alongside after ts us) {vs : List Token} {space : Text}
    (hvs : Atmark.untilApostrophe ts = some (vs, space)) : vs.length + 1 ≤ ts.length ∧
      ∃ ws, Atmark.untilApostrophe us = some (ws, space) ∧ unplacedAll ws = unplacedAll vs := by
  induction ts generalizing us vs with
  | nil => cases hvs
  | cons t ts ih =>
    obtain ⟨u, us, rfl, hu, hus⟩ := h.cons
    rw [Atmark.untilApostrophe] at hvs ⊢
    rw [hu.isPunct, hu.space]
    split at hvs
    · rename_i hquote
      cases hvs
      rw [if_pos hquote]
      exact ⟨by simp, [], rfl, rfl⟩
    · rename_i hquote
      obtain ⟨⟨vs', space'⟩, hfound, he⟩ := Option.map_eq_some_iff.mp hvs
      cases he
      obtain ⟨hlength, ws, hws, hsame⟩ := ih hus hfound
      rw [if_neg hquote, hws]
      refine ⟨Nat.succ_le_succ hlength, u :: ws, rfl, ?_⟩
      rw [unplacedAll, unplacedAll, hu, hsame]

section Parted
variable (hafter : Parted after)
include hafter

/-- Past the end of the first list only tokens follow that are parted from it. -/
theorem parted {u : Token} (h : Alongside after [] (u :: us)) : Text.breaksLine u.space = true := by
  have hu : after = u.unplaced :: unplacedAll us := h.symm
  have hspace := hafter u.unplaced (by rw [hu]; rfl)
  rwa [Same.space (t := u.unplaced) (u := u) (by simp [Same])]

theorem not_glued {u : Token} (h : Alongside after [] (u :: us)) : u.glued = false := by
  have hne := Text.breaksLine_ne_nil (parted hafter h)
  simpa [Token.glued] using hne

/-- A test that no token after a line break passes has the same answer for the next tokens. -/
theorem any_head_unbroken {p : Token → Bool} (h : Alongside after ts us) (hp : ∀ t u, Same t u → p u = p t)
    (hbroken : ∀ t, p t = true → Text.breaksLine t.space = false) : us.head?.any p = ts.head?.any p := by
  cases ts with
  | nil =>
    cases us with
    | nil => rfl
    | cons u us =>
      have hu := parted hafter h
      cases hpu : p u with
      | false => simp [hpu]
      | true =>
        rw [hbroken u hpu] at hu
        cases hu
  | cons t ts =>
    obtain ⟨u, us', rfl, hu, -⟩ := h.cons
    exact hp t u hu

/-- So has a test that only tokens without white space before them pass. -/
theorem any_head {p : Token → Bool} (h : Alongside after ts us) (hp : ∀ t u, Same t u → p u = p t)
    (hglued : ∀ t, p t = true → t.glued = true) : us.head?.any p = ts.head?.any p := by
  refine any_head_unbroken hafter h hp fun t ht => ?_
  rw [List.isEmpty_iff.mp (hglued t ht)]
  rfl

/-- So do runs of such tokens. -/
theorem takeWhile {p : Token → Bool} (h : Alongside after ts us) (hp : ∀ t u, Same t u → p u = p t)
    (hglued : ∀ t, p t = true → t.glued = true) :
    unplacedAll (us.takeWhile p) = unplacedAll (ts.takeWhile p) := by
  induction ts generalizing us with
  | nil =>
    have hhead := any_head hafter h hp hglued
    cases us with
    | nil => rfl
    | cons u us =>
      have hu : p u = false := by simpa using hhead
      rw [List.takeWhile_cons_of_neg (by simp [hu]), List.takeWhile_nil]
  | cons t ts ih =>
    obtain ⟨u, us', rfl, hu, hus⟩ := h.cons
    rw [List.takeWhile_cons, List.takeWhile_cons, hp t u hu]
    split
    · rw [unplacedAll, unplacedAll, ih hus, hu]
    · rfl

theorem gluedTagName (h : Alongside after ts us) :
    unplacedAll (Atmark.gluedTagName us) = unplacedAll (Atmark.gluedTagName ts) := by
  have heq (ts : List Token) : Atmark.gluedTagName ts = ts.takeWhile fun t => t.glued && t.continuesTagName := by
    induction ts with
    | nil => rfl
    | cons t ts ih =>
      rw [Atmark.gluedTagName, List.takeWhile_cons, ih]
  rw [heq, heq]
  refine takeWhile hafter h (fun t u hu => ?_) fun t ht => ?_
  · rw [hu.glued, hu.continuesTagName]
  · exact (Bool.and_eq_true_iff.mp ht).1

theorem tagNameTokens (h : Alongside after (t :: ts) us) :
    unplacedAll (Atmark.tagNameTokens us) = unplacedAll (Atmark.tagNameTokens (t :: ts)) := by
  obtain ⟨u, us', rfl, hu, hus⟩ := h.cons
  rw [Atmark.tagNameTokens, Atmark.tagNameTokens, hu.continuesTagName]
  split
  · rw [unplacedAll, unplacedAll, gluedTagName hafter hus, hu]
  · rfl

theorem gluedColons (h : Alongside after ts us) : Atmark.gluedColons us = Atmark.gluedColons ts := by
  have heq (ts : List Token) :
      Atmark.gluedColons ts = (ts.takeWhile fun t => t.isPunct ':' && t.glued).length := by
    induction ts with
    | nil => rfl
    | cons t ts ih =>
      rw [Atmark.gluedColons, List.takeWhile_cons, ih]
      split <;> rfl
  rw [heq, heq]
  refine length_congr (takeWhile hafter h (fun t u hu => ?_) fun t ht => ?_)
  · rw [hu.glued, hu.isPunct]
  · exact (Bool.and_eq_true_iff.mp ht).2

theorem colons (h : Alongside after (t :: ts) us) : Atmark.colons us = Atmark.colons (t :: ts) := by
  obtain ⟨u, us', rfl, hu, hus⟩ := h.cons
  rw [Atmark.colons, Atmark.colons, hu.isPunct, gluedColons hafter hus]

theorem gluedMarks (h : Alongside after ts us) (cs : List Char) :
    Atmark.gluedMarks cs us = Atmark.gluedMarks cs ts := by
  induction cs generalizing ts us with
  | nil => cases ts <;> cases us <;> rfl
  | cons c cs ih =>
    cases ts with
    | nil =>
      cases us with
      | nil => rfl
      | cons u us => simp [Atmark.gluedMarks, not_glued hafter h]
    | cons t ts =>
      obtain ⟨u, us', rfl, hu, hus⟩ := h.cons
      rw [Atmark.gluedMarks, Atmark.gluedMarks, hu.isPunct, hu.glued, ih hus]

theorem startsWithMarks (h : Alongside after (t :: ts) us) (cs : List Char) :
    Atmark.startsWithMarks cs us = Atmark.startsWithMarks cs (t :: ts) := by
  obtain ⟨u, us', rfl, hu, hus⟩ := h.cons
  cases cs with
  | nil => rfl
  | cons c cs => rw [Atmark.startsWithMarks, Atmark.startsWithMarks, hu.isPunct, gluedMarks hafter hus]

end Parted

end Alongside

/-- The marks are that many tokens. -/
theorem length_of_gluedMarks {cs : List Char} {ts : List Token} (h : gluedMarks cs ts = true) :
    cs.length ≤ ts.length := by
  induction cs generalizing ts with
  | nil => exact Nat.zero_le _
  | cons c cs ih =>
    cases ts with
    | nil => cases h
    | cons t ts =>
      rw [gluedMarks, Bool.and_eq_true_iff] at h
      exact Nat.succ_le_succ (ih h.2)

theorem length_of_startsWithMarks {cs : List Char} {ts : List Token} (h : startsWithMarks cs ts = true) :
    cs.length ≤ ts.length := by
  cases cs with
  | nil => exact Nat.zero_le _
  | cons c cs =>
    cases ts with
    | nil => cases h
    | cons t ts =>
      rw [startsWithMarks, Bool.and_eq_true_iff] at h
      exact Nat.succ_le_succ (length_of_gluedMarks h.2)

end Token
end Atmark
