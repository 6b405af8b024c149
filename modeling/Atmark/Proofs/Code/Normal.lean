import Atmark.Proofs.Code.Events
import Atmark.Proofs.Parse.Contract

/-! Joined calls are a normal form. A list of tokens is cut into runs of neighbouring calls and tokens that start
no call (`runInduction`); joining replaces each run by one call and keeps the other tokens in their order
(`Merges`). What is left has no two neighbouring calls, neither directly nor in a group (`Normal`), and lists
without such neighbours are exactly those that joining leaves as they are (`coalesce_eq_self_iff`). -/
namespace Atmark.Code
open Token

/-- Nowhere in the tokens, at any depth, does one call that writes to `buf` directly follow another. -/
def Normal (buf : Text) (ts : List Token) : Prop :=
  ∀ us, Part ts us → (written? buf us).isSome = true → written? buf (us.drop 5) = none

mutual

/-- A token as it is, or a group with runs of neighbouring calls merged in it. -/
inductive MergesToken (buf : Text) : Token → Token → Prop
  | same (t : Token) : MergesToken buf t t
  | group {f : Frame} {ts us : List Token} : Merges buf ts us → MergesToken buf (.group f ts) (.group f us)

/-- The second list is the first with some runs of neighbouring calls merged: each run is replaced by one call
that writes all its texts, with the receiver of its first call and the semicolon of its last. All other tokens
are kept in their order. -/
inductive Merges (buf : Text) : List Token → List Token → Prop
  | nil : Merges buf [] []
  | keep {t t' : Token} {ts us : List Token} :
      MergesToken buf t t' → Merges buf ts us → Merges buf (t :: ts) (t' :: us)
  | run {cs : List (Text × List Token)} {call ts us : List Token} :
      2 ≤ cs.length → (∀ c ∈ cs, IsTextCall buf c.1 c.2) → IsTextCall buf (cs.flatMap (·.1)) call →
      call.take 3 = (cs.flatMap (·.2)).take 3 → call.getLast? = (cs.flatMap (·.2)).getLast? →
      Merges buf ts us → Merges buf (cs.flatMap (·.2) ++ ts) (call ++ us)

end

end Atmark.Code

/-! ## Parts of lists -/

namespace Atmark.Token.Part
variable {ts us vs : List Token}

theorem trans (h : Part ts us) (h' : Part us vs) : Part ts vs := by
  induction h' with
  | whole => exact h
  | tail _ ih => exact ih.tail
  | inner _ ih => exact ih.inner

/-- A part of a group in a list. -/
theorem within {f : Frame} {cs : List Token} (hg : .group f cs ∈ ts) (h : Part cs us) : Part ts us :=
  (Part.whole.group hg).trans h

end Atmark.Token.Part

namespace Atmark.Code
open Token
variable {buf : Text} {ts : List Token}

/-! ## Runs of calls -/

/-- One call for a call and those that follow it. -/
def TextCall.joinAll (c : TextCall) : List TextCall → TextCall
  | [] => c
  | d :: ds => c.join (d.joinAll ds)

/-- The call is one of the source that writes to `buf`. -/
def TextCall.Single (buf : Text) (c : TextCall) : Prop := c.Writes buf ∧ c.isJoined = false

theorem TextCall.length_tokens (c : TextCall) : c.tokens.length = 5 := rfl

/-- Joining finds the calls that reading finds. -/
theorem textCall?_eq_none {ts : List Token} (h : written? buf ts = none) : textCall? buf ts = none := by
  cases hc : textCall? buf ts with
  | none => rfl
  | some c =>
    obtain ⟨hw, -, rest, rfl⟩ := textCall?_eq_some hc
    rw [written?_tokens hw] at h
    cases h

/-- A list of tokens is made of runs of neighbouring calls, none of which can be made longer, and of tokens that
start no call. -/
theorem runInduction (buf : Text) {motive : List Token → Prop} (nil : motive [])
    (token : ∀ t ts, textCall? buf (t :: ts) = none → motive ts → motive (t :: ts))
    (run : ∀ (c : TextCall) (cs : List TextCall) ts, c.Single buf → (∀ d ∈ cs, d.Single buf) →
      textCall? buf ts = none → motive ts → motive ((c :: cs).flatMap TextCall.tokens ++ ts))
    (ts : List Token) : motive ts := by
  -- A list that starts with a call starts with a run; the call before a run makes it longer.
  have hboth : motive ts ∧ ∀ d, textCall? buf ts = some d → ∃ (c : TextCall) (cs : List TextCall) (us : List Token),
      ts = (c :: cs).flatMap TextCall.tokens ++ us ∧ c.Single buf ∧ (∀ d ∈ cs, d.Single buf) ∧
        textCall? buf us = none ∧ motive us := by
    induction ts using callInduction buf with
    | nil => exact ⟨nil, fun d hd => by cases hd⟩
    | token t ts ht ih => exact ⟨token t ts ht ih.1, fun d hd => by simp [ht] at hd⟩
    | call c ts hc hj ih =>
      have hrun : ∃ (cs : List TextCall) (us : List Token),
          c.tokens ++ ts = (c :: cs).flatMap TextCall.tokens ++ us ∧ (∀ d ∈ cs, d.Single buf) ∧
            textCall? buf us = none ∧ motive us := by
        cases hts : textCall? buf ts with
        | none => exact ⟨[], ts, by simp, by simp, hts, ih.1⟩
        | some d =>
          obtain ⟨e, cs, us, rfl, he, hcs, hus, hm⟩ := ih.2 d hts
          exact ⟨e :: cs, us, by simp, by simpa using ⟨he, hcs⟩, hus, hm⟩
      obtain ⟨cs, us, heq, hcs, hus, hm⟩ := hrun
      rw [heq]
      exact ⟨run c cs us ⟨hc, hj⟩ hcs hus hm, fun _ _ => ⟨c, cs, us, rfl, ⟨hc, hj⟩, hcs, hus, hm⟩⟩
  exact hboth.1

/-- Before tokens that start no call, a run is joined to one call. -/
theorem joinBlock_run {c : TextCall} {cs : List TextCall} {ts : List Token} (hc : c.Single buf)
    (hcs : ∀ d ∈ cs, d.Single buf) (hts : textCall? buf ts = none) :
    joinBlock buf ((c :: cs).flatMap TextCall.tokens ++ ts) = (c.joinAll cs).tokens ++ joinBlock buf ts := by
  have hjoin : joinCalls (items buf ((c :: cs).flatMap TextCall.tokens ++ ts)) =
      .call (c.joinAll cs) :: joinCalls (items buf ts) := by
    induction cs generalizing c with
    | nil =>
      rw [List.flatMap_singleton, items_call hc.1 hc.2, joinCalls]
      cases ts with
      | nil => rfl
      | cons t ts =>
        rw [items_token hts]
        rfl
    | cons d ds ih =>
      have ih := ih (hcs d (.head _)) fun e he => hcs e (.tail _ he)
      rw [List.flatMap_cons, List.append_assoc, items_call hc.1 hc.2, joinCalls, ih]
      rfl
  rw [joinBlock, hjoin, List.flatMap_cons]
  rfl

theorem joinAll_writes {c : TextCall} {cs : List TextCall} (hc : c.Single buf) (hcs : ∀ d ∈ cs, d.Single buf) :
    (c.joinAll cs).Writes buf := by
  induction cs generalizing c with
  | nil => exact hc.1
  | cons d ds ih => exact hc.1.join (ih (hcs d (.head _)) fun e he => hcs e (.tail _ he))

theorem joinAll_text (c : TextCall) (cs : List TextCall) :
    (c.joinAll cs).text = (c :: cs).flatMap TextCall.text := by
  induction cs generalizing c with
  | nil => simp [TextCall.joinAll]
  | cons d ds ih =>
    rw [List.flatMap_cons, ← ih d]
    rfl

theorem joinAll_take (c : TextCall) (cs : List TextCall) :
    (c.joinAll cs).tokens.take 3 = ((c :: cs).flatMap TextCall.tokens).take 3 := by
  cases cs <;> rfl

theorem joinAll_getLast? (c : TextCall) (cs : List TextCall) :
    (c.joinAll cs).tokens.getLast? = ((c :: cs).flatMap TextCall.tokens).getLast? := by
  induction cs generalizing c with
  | nil => rfl
  | cons d ds ih =>
    have hne : (d :: ds).flatMap TextCall.tokens ≠ [] := by simp [TextCall.tokens]
    rw [List.flatMap_cons, List.getLast?_append_of_ne_nil _ hne, ← ih d]
    rfl

/-! ## Merged runs -/

/-- Each token on its own keeps the order of a list, runs of calls are merged. -/
theorem merges_of_each {ts : List Token} (h : ∀ t ∈ ts, MergesToken buf t (coalesceToken buf t)) :
    Merges buf ts (coalesce buf ts) := by
  have heach {c : TextCall} {cs : List TextCall} {ts : List Token} (hc : c.Single buf)
      (hcs : ∀ d ∈ cs, d.Single buf) : coalesceEach buf ((c :: cs).flatMap TextCall.tokens ++ ts) =
        (c :: cs).flatMap TextCall.tokens ++ coalesceEach buf ts := by
    induction cs generalizing c with
    | nil => simpa using coalesceEach_call hc.2 ts
    | cons d ds ih =>
      have ih := ih (hcs d (.head _)) fun e he => hcs e (.tail _ he)
      rw [List.flatMap_cons, List.append_assoc, coalesceEach_call hc.2, ih, List.append_assoc]
  unfold coalesce
  induction ts using runInduction buf with
  | nil => exact .nil
  | token t ts ht ih =>
    have hnone := textCall?_eq_none (written?_coalesceEach ht)
    rw [coalesceEach] at hnone ⊢
    rw [joinBlock_token hnone]
    exact .keep (h t (.head _)) (ih fun u hu => h u (.tail _ hu))
  | run c cs ts hc hcs hts ih =>
    have ih := ih fun u hu => h u (List.mem_append_right _ hu)
    rw [heach hc hcs, joinBlock_run hc hcs (textCall?_eq_none (written?_coalesceEach hts))]
    cases cs with
    | nil =>
      -- A call without neighbours is kept, token by token.
      have hkeep (us : List Token) : Merges buf (us ++ ts) (us ++ joinBlock buf (coalesceEach buf ts)) := by
        induction us with
        | nil => exact ih
        | cons u us ihs => exact .keep (.same u) ihs
      rw [List.flatMap_singleton]
      exact hkeep c.tokens
    | cons d ds =>
      have hall : ∀ e ∈ c :: d :: ds, e.Single buf := by simpa using ⟨hc, by simpa using hcs⟩
      have hruns : ∀ (ds : List TextCall), ds.flatMap TextCall.tokens =
          (ds.map fun d => (d.text, d.tokens)).flatMap (·.2) := fun ds => by rw [List.flatMap_map]
      have htext := (joinAll_writes hc hcs).isTextCall
      rw [joinAll_text] at htext
      rw [hruns]
      refine .run (by simp) ?_ ?_ ?_ ?_ ih
      · simp only [List.mem_map]
        rintro _ ⟨e, he, rfl⟩
        exact (hall e he).1.isTextCall
      · rwa [List.flatMap_map]
      · rw [← hruns]
        exact joinAll_take _ _
      · rw [← hruns]
        exact joinAll_getLast? _ _

mutual

theorem mergesToken_coalesceToken (buf : Text) : (t : Token) → MergesToken buf t (coalesceToken buf t)
  | .ident _ | .literal _ | .punct _ => .same _
  | .group _ ts => .group (merges_of_each (mergesToken_coalesceEach buf ts))

theorem mergesToken_coalesceEach (buf : Text) : (ts : List Token) →
    ∀ t ∈ ts, MergesToken buf t (coalesceToken buf t)
  | [], _, ht => nomatch ht
  | t :: ts, u, hu => by
    rcases List.mem_cons.mp hu with hu | hu
    · exact hu ▸ mergesToken_coalesceToken buf t
    · exact mergesToken_coalesceEach buf ts u hu

end

theorem merges_coalesce (buf : Text) (ts : List Token) : Merges buf ts (coalesce buf ts) :=
  merges_of_each (mergesToken_coalesceEach buf ts)

/-! ## No neighbouring calls -/

/-- Tokens that start no call start none after the calls among them are joined. -/
theorem written?_joinBlock_of_none {ts : List Token} (h : textCall? buf ts = none) :
    written? buf (joinBlock buf ts) = none := by
  cases ts with
  | nil => rfl
  | cons t ts =>
    rw [joinBlock_token h]
    exact written?_joinBlock h

/-- Calls do not overlap: inside a call none starts. -/
theorem written?_suffix_call {c : TextCall} (hc : c.Writes buf) {us ts : List Token} {k : Nat} (hk : k < 5)
    (h : us = (c.tokens ++ ts).drop k) (hw : (written? buf us).isSome = true) : k = 0 := by
  obtain ⟨r, d, m, f, l, s, hts, -⟩ := hc.isTextCall
  rw [hts] at h
  subst h
  rcases k with _ | _ | _ | _ | _ | k
  · rfl
  · cases hw
  · cases hw
  · cases hw
  · cases hw
  · omega

/-- In a block whose calls are joined no call directly follows another. -/
theorem joinBlock_apart {ts us : List Token} (hus : us <:+ joinBlock buf ts)
    (h : (written? buf us).isSome = true) : written? buf (us.drop 5) = none := by
  induction ts using runInduction buf with
  | nil =>
    obtain rfl : us = [] := List.suffix_nil.mp hus
    cases h
  | token t ts ht ih =>
    rw [joinBlock_token ht] at hus
    rcases List.suffix_cons_iff.mp hus with rfl | hus
    · rw [written?_joinBlock ht] at h
      cases h
    · exact ih hus
  | run c cs ts hc hcs hts ih =>
    rw [joinBlock_run hc hcs hts] at hus
    obtain ⟨before, hbefore⟩ := hus
    have hdrop : us = ((c.joinAll cs).tokens ++ joinBlock buf ts).drop before.length := by
      rw [← hbefore, List.drop_left]
    rcases Nat.lt_or_ge before.length 5 with hlt | hge
    · -- Then it is the joined call itself, and what follows starts no call.
      have hzero := written?_suffix_call (joinAll_writes hc hcs) hlt hdrop h
      rw [hdrop, hzero, List.drop_zero, ← (c.joinAll cs).length_tokens, List.drop_left]
      exact written?_joinBlock_of_none hts
    · refine ih ?_
      rw [hdrop, List.drop_append, List.drop_eq_nil_of_le hge, List.nil_append]
      exact List.drop_suffix _ _

/-- Joining the calls of a block makes no group but the argument of a call. -/
theorem mem_joinBlock_group {f : Frame} {cs ts : List Token} (h : .group f cs ∈ joinBlock buf ts) :
    .group f cs ∈ ts ∨ ∃ l, cs = [.literal l] := by
  induction ts using runInduction buf with
  | nil => cases h
  | token t ts ht ih =>
    rw [joinBlock_token ht] at h
    rcases List.mem_cons.mp h with h | h
    · exact .inl (h ▸ .head _)
    · exact (ih h).imp_left (.tail _)
  | run c ds ts hc hds hts ih =>
    rw [joinBlock_run hc hds hts] at h
    rcases List.mem_append.mp h with h | h
    · obtain ⟨r, d, m, g, l, s, htokens, -⟩ := (joinAll_writes hc hds).isTextCall
      rw [htokens] at h
      simp only [List.mem_cons, Token.group.injEq, reduceCtorEq, false_or, List.not_mem_nil, or_false] at h
      exact .inr ⟨l, h.2⟩
    · exact (ih h).imp_left (List.mem_append_right _)

/-- Every part of joined tokens is the rest of a list whose calls are joined. -/
theorem suffix_of_part {ts us : List Token} (h : Part (coalesce buf ts) us) :
    ∃ cs, us <:+ coalesce buf cs := by
  induction h with
  | whole => exact ⟨ts, List.suffix_rfl⟩
  | tail _ ih =>
    obtain ⟨cs, hcs⟩ := ih
    exact ⟨cs, (List.suffix_cons _ _).trans hcs⟩
  | @inner f ds us _ ih =>
    obtain ⟨cs, hcs⟩ := ih
    rcases mem_joinBlock_group (hcs.subset (.head _)) with hmem | ⟨l, rfl⟩
    · rw [coalesceEach_eq_map] at hmem
      obtain ⟨t, -, ht⟩ := List.mem_map.mp hmem
      cases t with
      | group g es =>
        rw [coalesceToken, Token.group.injEq] at ht
        exact ⟨es, ht.2 ▸ List.suffix_rfl⟩
      | _ => cases ht
    · exact ⟨[.literal l], List.suffix_rfl⟩

theorem normal_coalesce (buf : Text) (ts : List Token) : Normal buf (coalesce buf ts) := by
  intro us hus h
  obtain ⟨cs, hcs⟩ := suffix_of_part hus
  exact joinBlock_apart hcs h

/-! ## Lists that joining leaves as they are -/

/-- A block without neighbouring calls is left as it is. -/
theorem joinBlock_eq_self {ts : List Token}
    (h : ∀ us, us <:+ ts → (written? buf us).isSome = true → written? buf (us.drop 5) = none) :
    joinBlock buf ts = ts := by
  induction ts using runInduction buf with
  | nil => rfl
  | token t ts ht ih =>
    rw [joinBlock_token ht, ih fun us hus => h us (hus.trans (List.suffix_cons t ts))]
  | run c cs ts hc hcs hts ih =>
    have hrest := ih fun us hus => h us (hus.trans (List.suffix_append _ ts))
    cases cs with
    | nil =>
      rw [joinBlock_run hc hcs hts, hrest, List.flatMap_singleton]
      rfl
    | cons d ds =>
      have hsome : (written? buf ((c :: d :: ds).flatMap TextCall.tokens ++ ts)).isSome = true := by
        rw [List.flatMap_cons, List.append_assoc, written?_tokens hc.1]
        rfl
      have hnone := h _ List.suffix_rfl hsome
      rw [List.flatMap_cons, List.append_assoc, ← c.length_tokens, List.drop_left, List.flatMap_cons,
        List.append_assoc, written?_tokens (hcs d (.head _)).1] at hnone
      cases hnone

mutual

theorem coalesceToken_eq_self : (t : Token) → (∀ f cs, t = .group f cs → Normal buf cs) →
    coalesceToken buf t = t
  | .ident _, _ | .literal _, _ | .punct _, _ => rfl
  | .group f ts, h => by
    have hts := h f ts rfl
    rw [coalesceToken, coalesceEach_eq_self ts fun t ht f cs hg us hus => hts us (.within (hg ▸ ht) hus),
      joinBlock_eq_self fun us hus => hts us (.suffix .whole hus)]

theorem coalesceEach_eq_self : (ts : List Token) →
    (∀ t ∈ ts, ∀ f cs, t = .group f cs → Normal buf cs) → coalesceEach buf ts = ts
  | [], _ => rfl
  | t :: ts, h => by
    rw [coalesceEach, coalesceToken_eq_self t (h t (.head _)),
      coalesceEach_eq_self ts fun u hu => h u (.tail _ hu)]

end

/-- Joining leaves exactly those lists as they are in which no call follows another. -/
theorem coalesce_eq_self_iff : coalesce buf ts = ts ↔ Normal buf ts := by
  constructor
  · intro h
    exact h ▸ normal_coalesce buf ts
  · intro h
    rw [coalesce, coalesceEach_eq_self ts fun t ht f cs hg us hus => h us (.within (hg ▸ ht) hus),
      joinBlock_eq_self fun us hus => h us (.suffix .whole hus)]

end Atmark.Code
