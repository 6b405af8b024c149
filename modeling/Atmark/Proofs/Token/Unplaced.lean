import Atmark.Parse.Tag
import Atmark.Token.Print

/-! Tokens without their positions. Nothing that is read off a token depends on where it stands, and neither does
what is printed for it (`Token.format_congr`). -/
namespace Atmark

namespace Token

mutual

/-- The token without the positions in it. -/
def unplaced : Token → Token
  | .ident t => .ident { t with pos := none }
  | .literal t => .literal { t with pos := none }
  | .punct t => .punct { t with pos := none }
  | .group f ts => .group { f with pos := none } (unplacedAll ts)

/-- Tokens without the positions in them. -/
def unplacedAll : List Token → List Token
  | [] => []
  | t :: ts => t.unplaced :: unplacedAll ts

end

theorem unplacedAll_eq_map (ts : List Token) : unplacedAll ts = ts.map unplaced := by
  induction ts with
  | nil => rfl
  | cons t ts ih => rw [unplacedAll, ih, List.map_cons]

theorem unplacedAll_append (ts us : List Token) :
    unplacedAll (ts ++ us) = unplacedAll ts ++ unplacedAll us := by
  simp [unplacedAll_eq_map]

@[simp] theorem length_unplacedAll (ts : List Token) : (unplacedAll ts).length = ts.length := by
  simp [unplacedAll_eq_map]

theorem unplacedAll_drop (n : Nat) (ts : List Token) : unplacedAll (ts.drop n) = (unplacedAll ts).drop n := by
  simp [unplacedAll_eq_map]

mutual

@[simp] theorem unplaced_unplaced : (t : Token) → t.unplaced.unplaced = t.unplaced
  | .ident _ | .literal _ | .punct _ => rfl
  | .group f ts => by simp only [unplaced, unplacedAll_unplacedAll ts]

@[simp] theorem unplacedAll_unplacedAll : (ts : List Token) →
    unplacedAll (unplacedAll ts) = unplacedAll ts
  | [] => rfl
  | t :: ts => by simp only [unplacedAll, unplaced_unplaced t, unplacedAll_unplacedAll ts]

end

@[simp] theorem isPunct_unplaced (t : Token) (c : Char) : t.unplaced.isPunct c = t.isPunct c := by
  cases t <;> rfl

@[simp] theorem isNamed_unplaced (t : Token) (name : String) : t.unplaced.isNamed name = t.isNamed name := by
  cases t <;> rfl

@[simp] theorem space_unplaced (t : Token) : t.unplaced.space = t.space := by
  cases t <;> rfl

@[simp] theorem glued_unplaced (t : Token) : t.unplaced.glued = t.glued := by
  cases t <;> rfl

theorem gap_unplaced (last : Option Char) (t : Token) : gap last t.unplaced = gap last t := by
  cases t <;> rfl

theorem unplaced_withSpace (space : Text) (t : Token) :
    (t.withSpace space).unplaced = t.unplaced.withSpace space := by
  cases t <;> rfl

@[simp] theorem space_withSpace (t : Token) (space : Text) : (t.withSpace space).space = space := by
  cases t <;> rfl

@[simp] theorem withSpace_withSpace (t : Token) (space space' : Text) :
    (t.withSpace space).withSpace space' = t.withSpace space' := by
  cases t <;> rfl

@[simp] theorem glued_withSpace (t : Token) (space : Text) : (t.withSpace space).glued = space.isEmpty := by
  rw [glued, space_withSpace]

@[simp] theorem isPunct_withSpace (t : Token) (space : Text) (c : Char) : (t.withSpace space).isPunct c = t.isPunct c := by
  cases t <;> rfl

@[simp] theorem isNamed_withSpace (t : Token) (space : Text) (name : String) :
    (t.withSpace space).isNamed name = t.isNamed name := by
  cases t <;> rfl

mutual

theorem print_unplaced : (t : Token) → ∀ last, print last t.unplaced = print last t
  | .ident _, _ => rfl
  | .literal _, _ => rfl
  | .punct _, _ => rfl
  | .group f ts, last => by
    have hgap := gap_unplaced last (.group f ts)
    have hhead : (unplacedAll ts).head?.any glued = ts.head?.any glued := by
      cases ts with
      | nil => rfl
      | cons t ts => exact glued_unplaced t
    have hempty : (unplacedAll ts).isEmpty = ts.isEmpty := by cases ts <;> rfl
    rw [unplaced] at hgap ⊢
    rw [print, print]
    simp only [hgap, hhead, hempty, printAll_unplaced ts]

theorem printAll_unplaced : (ts : List Token) → ∀ last,
    printAll last (unplacedAll ts) = printAll last ts
  | [], _ => rfl
  | t :: ts, last => by
    have hbreak : breakAfter t.unplaced (unplacedAll ts).head? = breakAfter t ts.head? := by
      unfold breakAfter
      rw [isPunct_unplaced]
      cases ts with
      | nil => rfl
      | cons u us => simp [unplacedAll]
    rw [unplacedAll, printAll, printAll]
    simp only [hbreak, print_unplaced t, printAll_unplaced ts]

end

/-- Tokens that are the same but for positions are printed the same. -/
theorem format_congr {ts ts' : List Token} (h : unplacedAll ts = unplacedAll ts') :
    format ts = format ts' := by
  rw [format, ← printAll_unplaced, h, printAll_unplaced, format]

mutual

@[simp] theorem source_unplaced : (t : Token) → t.unplaced.source = t.source
  | .ident _ | .literal _ | .punct _ => rfl
  | .group f ts => by rw [unplaced, source, source, sourceWithSpace_unplacedAll ts]

@[simp] theorem sourceWithSpace_unplacedAll : (ts : List Token) →
    sourceWithSpace (unplacedAll ts) = sourceWithSpace ts
  | [] => rfl
  | t :: ts => by
    rw [unplacedAll, sourceWithSpace, sourceWithSpace, space_unplaced, source_unplaced t, sourceWithSpace_unplacedAll ts]

end

mutual

@[simp] theorem brief_unplaced : (t : Token) → t.unplaced.brief = t.brief
  | .ident _ | .literal _ | .punct _ => by simp only [unplaced, brief]
  | .group f ts => by
    rw [unplaced, brief, brief]
    cases ts with
    | nil => rfl
    | cons t ts => rw [unplacedAll, briefFirst, briefFirst, brief_unplaced t, briefRest_unplacedAll ts]

theorem briefRest_unplacedAll : (ts : List Token) → briefRest (unplacedAll ts) = briefRest ts
  | [] => rfl
  | t :: ts => by
    rw [unplacedAll, briefRest, briefRest, space_unplaced, brief_unplaced t, briefRest_unplacedAll ts]

end

/-! ## The same token somewhere else -/

/-- The tokens differ in positions only. -/
def Same (t u : Token) : Prop := u.unplaced = t.unplaced

namespace Same
variable {t u : Token}

theorem congr {β : Type} {f : Token → β} (hf : ∀ t, f t.unplaced = f t) (h : Same t u) : f u = f t := by
  rw [← hf u, h, hf]

theorem ident {id : Ident} (h : Same (.ident id) u) : ∃ pos, u = .ident { id with pos } := by
  cases u with
  | ident id' =>
    obtain ⟨_, _, _⟩ := id
    obtain ⟨_, _, _⟩ := id'
    cases h
    exact ⟨_, rfl⟩
  | _ => cases h

theorem literal {l : Literal} (h : Same (.literal l) u) : ∃ pos, u = .literal { l with pos } := by
  cases u with
  | literal l' =>
    obtain ⟨_, _, _, _⟩ := l
    obtain ⟨_, _, _, _⟩ := l'
    cases h
    exact ⟨_, rfl⟩
  | _ => cases h

theorem punct {p : Punct} (h : Same (.punct p) u) : ∃ pos, u = .punct { p with pos } := by
  cases u with
  | punct p' =>
    obtain ⟨_, _, _⟩ := p
    obtain ⟨_, _, _⟩ := p'
    cases h
    exact ⟨_, rfl⟩
  | _ => cases h

theorem group {f : Frame} {cs : List Token} (h : Same (.group f cs) u) :
    ∃ pos ds, u = .group { f with pos } ds ∧ unplacedAll ds = unplacedAll cs := by
  cases u with
  | group g ds =>
    obtain ⟨hframe, hcs⟩ := Token.group.inj h
    obtain ⟨_, _, _, _⟩ := f
    obtain ⟨_, _, _, _⟩ := g
    cases hframe
    exact ⟨_, ds, rfl, hcs⟩
  | _ => cases h

theorem space (h : Same t u) : u.space = t.space := h.congr fun t => by cases t <;> rfl

theorem glued (h : Same t u) : u.glued = t.glued := h.congr glued_unplaced

theorem brief (h : Same t u) : u.brief = t.brief := h.congr brief_unplaced

theorem source (h : Same t u) : u.source = t.source := h.congr source_unplaced

theorem isPunct (h : Same t u) (c : Char) : u.isPunct c = t.isPunct c := h.congr fun t => isPunct_unplaced t c

theorem isNamed (h : Same t u) (name : String) : u.isNamed name = t.isNamed name :=
  h.congr fun t => by cases t <;> rfl

theorem isIdent (h : Same t u) : u.isIdent = t.isIdent := h.congr fun t => by cases t <;> rfl

theorem isGroup (h : Same t u) (d : Delimiter) : u.isGroup d = t.isGroup d := h.congr fun t => by cases t <;> rfl

theorem startsTagName (h : Same t u) : u.startsTagName = t.startsTagName := h.congr fun t => by cases t <;> rfl

theorem continuesTagName (h : Same t u) : u.continuesTagName = t.continuesTagName :=
  h.congr fun t => by cases t <;> rfl

theorem continuesRun (h : Same t u) : u.continuesRun = t.continuesRun := h.congr fun t => by cases t <;> rfl

end Same

/-- The second tokens are the first ones somewhere else, and then come others. -/
def Alongside (after ts us : List Token) : Prop := unplacedAll us = unplacedAll ts ++ after

namespace Alongside
variable {after ts us : List Token} {t : Token}

theorem cons (h : Alongside after (t :: ts) us) : ∃ u us', us = u :: us' ∧ Same t u ∧ Alongside after ts us' := by
  cases us with
  | nil => cases h
  | cons u us' =>
    obtain ⟨hu, hus⟩ := List.cons.inj h
    exact ⟨u, us', rfl, hu, hus⟩

theorem length (h : Alongside after ts us) : us.length = ts.length + after.length := by
  have hlength := congrArg List.length h
  simpa using hlength

theorem drop (h : Alongside after ts us) {n : Nat} (hn : n ≤ ts.length) :
    Alongside after (ts.drop n) (us.drop n) := by
  unfold Alongside at h ⊢
  rw [unplacedAll_drop, h, List.drop_append_of_le_length (by simpa using hn), unplacedAll_drop]

/-- Nothing comes after. -/
theorem nil {us : List Token} (h : Alongside [] [] us) : us = [] := by
  cases us with
  | nil => rfl
  | cons => cases h

end Alongside

end Token

end Atmark
