import Atmark.Proofs.Code.Bare
import Atmark.View.Source

/-! Where a text stands does not show in generated files either. Joining calls only looks at tokens and at
what they write, so it takes code that is the same but for positions to such code (`coalesce_unplaced`), and
templates whose nodes are bare the same have the same generated file (`generate_agree`). -/
namespace Atmark
open Node

namespace Code
open Token

/-- The call without the positions in it. -/
def TextCall.unplaced (c : TextCall) : TextCall :=
  { c with
    receiver := { c.receiver with pos := none }, dot := { c.dot with pos := none },
    method := { c.method with pos := none }, frame := { c.frame with pos := none },
    literal := { c.literal with pos := none }, stop := { c.stop with pos := none } }

/-- The item without the positions in it. -/
def Item.unplaced : Item → Item
  | .call c => .call c.unplaced
  | .token t => .token t.unplaced

theorem textCall?_unplaced (buf : Text) (ts : List Token) :
    textCall? buf (unplacedAll ts) = (textCall? buf ts).map TextCall.unplaced := by
  -- each token of the call in turn: any other token in its place is one in both lists
  cases ts with
  | nil => rfl
  | cons a ts =>
  cases a with
  | literal | punct | group => rfl
  | ident r =>
  cases ts with
  | nil => rfl
  | cons a ts =>
  cases a with
  | literal | ident | group => rfl
  | punct d =>
  cases ts with
  | nil => rfl
  | cons a ts =>
  cases a with
  | literal | punct | group => rfl
  | ident m =>
  cases ts with
  | nil => rfl
  | cons a ts =>
  cases a with
  | literal | punct | ident => rfl
  | group f cs =>
  rcases cs with _ | ⟨c, _ | ⟨c', cs⟩⟩
  · rfl
  · cases c with
    | ident | punct | group => rfl
    | literal l =>
      rcases ts with _ | ⟨a, ts⟩
      · rfl
      · cases a with
        | ident | literal | group => rfl
        | punct s =>
          have hcall (isCall : Bool) (text? : Option Text) :
              (if isCall then text?.map fun text => TextCall.unplaced ⟨r, d, m, f, l, s, text, false⟩
                else none) =
                (if isCall then text?.map fun text => TextCall.mk r d m f l s text false
                  else none).map TextCall.unplaced := by
            cases isCall <;> cases text? <;> rfl
          exact hcall _ _
  · cases c <;> rfl

theorem itemsFrom_unplaced (buf : Text) (n : Nat) (ts : List Token) :
    itemsFrom buf n (unplacedAll ts) = (itemsFrom buf n ts).map Item.unplaced := by
  induction ts generalizing n with
  | nil => cases n <;> rfl
  | cons t ts ih =>
    cases n with
    | succ n => exact ih n
    | zero =>
      have hcall := textCall?_unplaced buf (t :: ts)
      rw [unplacedAll] at hcall ⊢
      rw [itemsFrom, itemsFrom, hcall]
      cases textCall? buf (t :: ts) with
      | none => simp [ih, Item.unplaced]
      | some c => simp [ih, Item.unplaced]

theorem joinCalls_unplaced (is : List Item) :
    joinCalls (is.map Item.unplaced) = (joinCalls is).map Item.unplaced := by
  induction is with
  | nil => rfl
  | cons i is ih =>
    cases i with
    | token t => simp only [List.map_cons, Item.unplaced, joinCalls, ih]
    | call c =>
      simp only [List.map_cons, Item.unplaced, joinCalls, ih]
      cases joinCalls is with
      | nil => rfl
      | cons j js => cases j <;> rfl

theorem tokens_unplaced (i : Item) : unplacedAll i.unplaced.tokens = unplacedAll i.tokens := by
  cases i with
  | token t => simp [Item.unplaced, Item.tokens, unplacedAll]
  | call c =>
    simp only [Item.unplaced, Item.tokens, TextCall.tokens, TextCall.unplaced]
    split <;> rfl

theorem joinBlock_unplaced {buf : Text} {ts ts' : List Token} (h : unplacedAll ts = unplacedAll ts') :
    unplacedAll (joinBlock buf ts) = unplacedAll (joinBlock buf ts') := by
  have hblock (ts : List Token) :
      unplacedAll (joinBlock buf (unplacedAll ts)) = unplacedAll (joinBlock buf ts) := by
    unfold joinBlock items
    rw [itemsFrom_unplaced, joinCalls_unplaced]
    induction joinCalls (itemsFrom buf 0 ts) with
    | nil => rfl
    | cons i is ih =>
      simp only [List.map_cons, List.flatMap_cons, unplacedAll_append, tokens_unplaced, ih]
  rw [← hblock, h, hblock]

mutual

theorem coalesceToken_unplaced (buf : Text) : (t : Token) →
    (coalesceToken buf t.unplaced).unplaced = (coalesceToken buf t).unplaced
  | .group f ts => by
    simp only [unplaced, coalesceToken]
    rw [joinBlock_unplaced (coalesceEach_unplaced buf ts)]
  | .ident _ => rfl
  | .literal _ => rfl
  | .punct _ => rfl

theorem coalesceEach_unplaced (buf : Text) : (ts : List Token) →
    unplacedAll (coalesceEach buf (unplacedAll ts)) = unplacedAll (coalesceEach buf ts)
  | [] => rfl
  | t :: ts => by
    simp only [unplacedAll, coalesceEach, coalesceToken_unplaced buf t, coalesceEach_unplaced buf ts]

end

/-- Calls are joined alike in code that is the same but for positions. -/
theorem coalesce_unplaced {buf : Text} {ts ts' : List Token} (h : unplacedAll ts = unplacedAll ts') :
    unplacedAll (coalesce buf ts) = unplacedAll (coalesce buf ts') := by
  refine joinBlock_unplaced ?_
  rw [← coalesceEach_unplaced, h, coalesceEach_unplaced]

end Code

/-! ## Generated files -/

theorem WorldM.Agree.note (message : String) (fields fields' : List (String × Text)) :
    WorldM.Agree id (WorldM.note message fields) (WorldM.note message fields') :=
  ⟨fun _ _ => rfl, fun _ => rfl, fun _ => rfl⟩

theorem WorldM.Agree.throw {α β : Type} {f : α → β} (e : Error) :
    WorldM.Agree f (MonadExcept.throw e) (MonadExcept.throw e) :=
  ⟨fun _ _ => rfl, fun _ => rfl, fun _ => rfl⟩

variable {settings : Settings} {t t' : Template}

/-- Templates with the same declarations and nodes that are bare the same have the same view. -/
theorem ViewFile.ofTemplate_agree (hpath : t'.path = t.path) (hdeclared : t'.declared = t.declared)
    (hnodes : bareAll t.nodes = bareAll t'.nodes) :
    WorldM.Agree id (ofTemplate settings t) (ofTemplate settings t') := by
  refine (Code.ofNodes_unplaced settings hnodes).bind fun code code' hcode => .pure ?_
  have hformat : Token.format (if settings.coalesce then Code.coalesce settings.buffer code else code) =
      Token.format (if settings.coalesce then Code.coalesce settings.buffer code' else code') := by
    split
    · exact Token.format_congr (Code.coalesce_unplaced hcode)
    · exact Token.format_congr hcode
  rw [hpath, hdeclared, hformat]

/-- So have they the same generated file. -/
theorem Template.generate_agree (hpath : t'.path = t.path) (hdeclared : t'.declared = t.declared)
    (hnodes : bareAll t.nodes = bareAll t'.nodes) :
    WorldM.Agree id (t.generate settings) (t'.generate settings) := by
  refine (ViewFile.ofTemplate_agree hpath hdeclared hnodes).bind ?_
  rintro file file' hfile
  obtain rfl : file = file' := hfile
  cases file.formatted with
  | some out => exact (WorldM.Agree.note _ _ _).bind fun _ _ _ => .pure rfl
  | none =>
    rw [hpath]
    exact (WorldM.Agree.note _ _ _).bind fun _ _ _ => .throw _

end Atmark
