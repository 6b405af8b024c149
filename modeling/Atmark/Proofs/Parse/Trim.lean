import Atmark.Proofs.Node.Nesting
import Atmark.Proofs.Node.Unplaced
import Mathlib.Data.List.TakeWhile

/-! The rest of a line that is trimmed. A trim that is pending takes the rest of a blank line off the text that
is written next. What is left of that text is added to the region (`State.pushText_eq`), and the nodes that come
after it are added as they are; so nodes are added whole exactly if their first text is
(`State.foldl_push_follows_iff`). -/
namespace Atmark
open Node

@[simp] theorem Node.isText_placeless (n : Node) : n.placeless.isText = n.isText := by
  cases n <;> simp only [placeless, isText]

namespace State

/-- Whether a region ends with a text does not depend on where its nodes stand. -/
theorem endsWithText_congr {s s' : State} (h : placelessAll s'.sink = placelessAll s.sink) :
    s'.sink.head?.any isText = s.sink.head?.any isText := by
  have hany := congrArg (fun ns => ns.head?.any isText) h
  simpa [placelessAll_eq_map, Option.any_map, Function.comp_def] using hany

/-- What is left of a text, and whether the line is still being trimmed after it. -/
def trimmed (s : State) (text : Text) : Text × Bool := if s.trimLine then trimText text else (text, false)

/-- All of a text is added to the region. -/
def addsWhole (s : State) (text : Text) : Bool :=
  (s.trimmed text).1 = text || (!(s.trimmed text).1.isEmpty && !s.sink.head?.any isText)

theorem trimText_suffix (text : Text) : (trimText text).1 <:+ text := by
  have h := List.dropWhile_suffix Text.isIndent (l := text)
  unfold trimText
  split
  · exact List.nil_suffix
  · rename_i r hr
    rw [hr] at h
    exact (List.suffix_cons _ r).trans h
  · rename_i r hr
    rw [hr] at h
    exact ((List.suffix_cons _ r).trans (List.suffix_cons _ _)).trans h
  · exact List.suffix_rfl

/-- Trimming only goes on after a text of which nothing is left. -/
theorem trimText_ends {text : Text} (h : (trimText text).1 ≠ []) : (trimText text).2 = false := by
  unfold trimText at h ⊢
  split at h
  · exact (h rfl).elim
  all_goals rfl

theorem getLast?_trimmed {s : State} {text : Text} (h : (s.trimmed text).1 ≠ []) :
    (s.trimmed text).1.getLast? = text.getLast? := by
  obtain ⟨before, hbefore⟩ : (s.trimmed text).1 <:+ text := by
    unfold trimmed
    split
    · exact trimText_suffix text
    · exact List.suffix_rfl
  conv => rhs; rw [← hbefore]
  rw [List.getLast?_append_of_ne_nil _ h]

theorem trimmed_ends {s : State} {text : Text} (h : (s.trimmed text).1 ≠ []) : (s.trimmed text).2 = false := by
  by_cases ht : s.trimLine = true
  · simp only [trimmed, ht, if_true] at h ⊢
    exact trimText_ends h
  · simp [trimmed, ht]

theorem pushText_eq (s : State) (pos : Option Position) (text : Text) : s.pushText pos text =
    if (s.trimmed text).1.isEmpty then { s with trimLine := (s.trimmed text).2 }
    else match s.sink with
      | .text p before :: rest =>
        { s with
          trimLine := (s.trimmed text).2
          sink := .text (p.map (·.withStop (pos.getD .zero).stop)) (before ++ (s.trimmed text).1) :: rest }
      | sink => { s with trimLine := false, sink := .text pos text :: sink } := rfl

/-- A line is trimmed only after a directive asks for it. -/
theorem push_untrimmed (s : State) (h : s.trimLine = false) (n : Node) : (s.push n).trimLine = false := by
  cases n with
  | text pos text =>
    rw [push, pushText_eq]
    have htrimmed : (s.trimmed text).2 = false := by simp [trimmed, h]
    repeat' split
    all_goals simp [htrimmed]
  | _ => rfl

/-! ## Nodes that are added whole -/

/-- The nodes of a region, latest first, after more nodes of which nothing is left out: a text that comes first
joins a text that the region ends with. -/
def follow : List Node → List Node → List Node
  | .text p before :: sink, .text pos content :: ns =>
    ns.reverse ++ .text (p.map (·.withStop (pos.getD .zero).stop)) (before ++ content) :: sink
  | sink, ns => ns.reverse ++ sink

/-- All of the first node is added to the region. -/
def addsFirst (s : State) : List Node → Bool
  | .text _ content :: _ => s.addsWhole content
  | _ => true

/-- Behind another node, or while no line is being trimmed, nodes are added as they are. -/
theorem foldl_push_apart {ns : List Node} {s : State} (hns : TextsApart ns)
    (hfirst : ∀ n ∈ ns.head?, n.isText = true → s.trimLine = false ∧ s.sink.head?.any isText = false) :
    (ns.foldl push s).sink = ns.reverse ++ s.sink := by
  induction ns generalizing s with
  | nil => rfl
  | cons n ns ih =>
    have hpush : (s.push n).trimLine = false ∧ (s.push n).sink = n :: s.sink := by
      cases n with
      | text pos text =>
        obtain ⟨htrim, hhead⟩ := hfirst _ rfl rfl
        have htext : text.isEmpty = false := by
          cases text with
          | nil => exact (hns.nonempty pos (.head _)).elim
          | cons => rfl
        have htrimmed : s.trimmed text = (text, false) := by simp [trimmed, htrim]
        rw [push, pushText_eq, htrimmed]
        simp only [htext, Bool.false_eq_true, if_false]
        split
        · rename_i hsink
          rw [hsink] at hhead
          cases hhead
        · exact ⟨rfl, rfl⟩
      | _ => exact ⟨rfl, rfl⟩
    obtain ⟨htrim, hsink⟩ := hpush
    rw [List.foldl_cons, ih hns.tail, hsink]
    · simp
    · intro m hm hmtext
      refine ⟨htrim, ?_⟩
      have happart := (List.isChain_cons.mp hns.apart).1 m hm
      simpa [hsink, hmtext] using happart

/-- Nodes whose texts stand apart are added whole exactly if the first of them is. -/
theorem foldl_push_follows_iff {ns : List Node} (s : State) (hns : TextsApart ns) :
    (ns.foldl push s).sink = follow s.sink ns ↔ s.addsFirst ns = true := by
  cases ns with
  | nil => simp [follow, addsFirst]
  | cons n ns =>
    -- The nodes after the first one do not begin with a text if that one is a text.
    have hrest {v : State} (hn : n.isText = true) : (ns.foldl push v).sink = ns.reverse ++ v.sink := by
      refine foldl_push_apart hns.tail fun m hm hmtext => ?_
      have happart := (List.isChain_cons.mp hns.apart).1 m hm
      rw [hn, hmtext] at happart
      cases happart
    rw [List.foldl_cons]
    cases n with
    | text pos text =>
      have htext : text ≠ [] := by
        rintro rfl
        exact hns.nonempty pos (.head _)
      rw [hrest rfl, push, pushText_eq, addsFirst, addsWhole]
      by_cases hempty : (s.trimmed text).1.isEmpty = true
      · rw [if_pos hempty, List.isEmpty_iff.mp hempty]
        cases hsink : s.sink with
        | nil => simp [follow, htext.symm]
        | cons b sink => cases b <;> simp [follow, htext.symm, htext]
      · rw [if_neg hempty]
        cases hsink : s.sink with
        | nil => simp [follow, hempty]
        | cons b sink => cases b <;> simp [follow, hempty, isText]
    | _ =>
      rw [foldl_push_apart hns.tail]
      · simp [follow, addsFirst, push]
      · intro m hm _
        exact ⟨rfl, rfl⟩

end State
end Atmark
