import Atmark.Proofs.Code.Dotted
import Atmark.Proofs.Directive.Contract

/-! What the header of a loop means. `Directive.Translates` says which headers there are and what clause each of them
stands for, without a word on how a header is taken apart: a range of integers, anything else that is iterated over,
and a clause of the code, which is copied. Those are the headers that are accepted, each with its clause
(`Directive.forClause_translates`). A clause of the code in which a variable is named `in` is none of them. -/
namespace Atmark

namespace Code
variable {buf : Text} {ns ms : List Node} {ts us : List Token}

/-- The nodes are lowered to these tokens, one by one. -/
structure Copies (buf : Text) (ns : List Node) (ts : List Token) : Prop where
  pieces : piecesFrom buf [] none ns = ts.map fun t => ⟨[t], false⟩
  notText : ∀ n ∈ ns, n.isText = false

namespace Copies

theorem ofTokens (ts : List Token) : Copies buf (Node.ofTokens ts) (Token.dottedAll ts) :=
  ⟨piecesFrom_dotted buf ts false, Node.ofTokens_isText ts⟩

theorem nil : Copies buf [] [] := ⟨rfl, by simp⟩

theorem cons {n : Node} {t : Token} (hn : n.isText = false) (ht : nodePieces buf n = [⟨[t], false⟩])
    (h : Copies buf ns ts) : Copies buf (n :: ns) (t :: ts) where
  pieces := by
    rw [piecesFrom_cons buf _ _ _ hn, ht, h.pieces]
    rfl
  notText m hm := by
    rcases List.mem_cons.mp hm with rfl | hm
    · exact hn
    · exact h.notText m hm

theorem append (h : Copies buf ns ts) (h' : Copies buf ms us) : Copies buf (ns ++ ms) (ts ++ us) where
  pieces := by
    cases ms with
    | nil =>
      have hus : us = [] := by simpa [piecesFrom, flush] using h'.pieces.symm
      rw [List.append_nil, hus, List.append_nil, h.pieces]
    | cons m ms =>
      have hm := h'.notText m (.head _)
      have hpieces := h'.pieces
      rw [piecesFrom_cons buf _ _ _ hm] at hpieces
      rw [piecesFrom_append buf _ _ _ _ hm, h.pieces, List.map_append, ← hpieces]
      rfl
  notText n hn := (List.mem_append.mp hn).elim (h.notText n) (h'.notText n)

theorem lower_eq (h : Copies buf ns ts) : lower buf ns = ts := by
  rw [lower, h.pieces, join, joinFrom_tokens]

end Copies
end Code

namespace Directive
open Token

/-! ## Dots -/

/-- Two dots stand directly after one another among the tokens. -/
def HasRange (ts : List Token) : Prop :=
  ∃ (before : List Token) (p q : Token) (after : List Token),
    ts = before ++ p :: q :: after ∧ p.isPunct '.' = true ∧ q.isPunct '.' = true ∧ q.glued = true

/-- The two tokens are the first dots after these tokens that stand directly after one another. -/
structure RangeAfter (before : List Token) (p q : Token) : Prop where
  point : p.isPunct '.' = true
  point' : q.isPunct '.' = true
  glued : q.glued = true
  first : ¬HasRange before
  apart : ∀ t ∈ before.getLast?, t.isPunct '.' = true → p.glued = false

theorem HasRange.tail {t : Token} {ts : List Token} (h : HasRange ts) : HasRange (t :: ts) := by
  obtain ⟨before, p, q, after, rfl, hp, hq, hglued⟩ := h
  exact ⟨t :: before, p, q, after, rfl, hp, hq, hglued⟩

theorem hasRange_cons {t u : Token} {ts : List Token} : HasRange (t :: u :: ts) ↔
    (t.isPunct '.' && u.isPunct '.' && u.glued) = true ∨ HasRange (u :: ts) := by
  constructor
  · rintro ⟨before, p, q, after, heq, hp, hq, hglued⟩
    cases before with
    | nil =>
      obtain ⟨rfl, rfl, rfl⟩ : t = p ∧ u = q ∧ ts = after := by simpa using heq
      simp [hp, hq, hglued]
    | cons v before =>
      obtain ⟨rfl, htail⟩ := List.cons.inj heq
      exact .inr ⟨before, p, q, after, htail, hp, hq, hglued⟩
  · rintro (h | h)
    · simp only [Bool.and_eq_true] at h
      exact ⟨[], t, u, ts, rfl, h.1.1, h.1.2, h.2⟩
    · exact h.tail

theorem not_hasRange_nil : ¬HasRange [] := by
  rintro ⟨before, p, q, after, heq, -⟩
  simp at heq

theorem not_hasRange_singleton (t : Token) : ¬HasRange [t] := by
  rintro ⟨before, p, q, after, heq, -⟩
  have hlength := congrArg List.length heq
  simp only [List.length_cons, List.length_nil, List.length_append] at hlength
  omega

theorem splitAtRange_eq_none {ts : List Token} : splitAtRange ts = none ↔ ¬HasRange ts := by
  fun_induction splitAtRange ts with
  | case1 t u ts hdots => simp [hasRange_cons, hdots]
  | case2 t u ts hdots ih => rw [Option.map_eq_none_iff, ih, hasRange_cons, or_iff_right hdots]
  | case3 ts hshort =>
    cases ts with
    | nil => simp [not_hasRange_nil]
    | cons t ts =>
      cases ts with
      | nil => simp [not_hasRange_singleton]
      | cons u ts => exact (hshort t u ts rfl).elim

theorem hasRange_concat {ts : List Token} {p : Token} (hp : p.isPunct '.' = true) :
    ¬HasRange (ts ++ [p]) ↔ ¬HasRange ts ∧ ∀ t ∈ ts.getLast?, t.isPunct '.' = true → p.glued = false := by
  induction ts with
  | nil => simp [not_hasRange_nil, not_hasRange_singleton]
  | cons t ts ih =>
    cases ts with
    | nil => simp [hasRange_cons, not_hasRange_singleton, hp]
    | cons u ts =>
      rw [List.getLast?_cons_cons, List.cons_append, List.cons_append, hasRange_cons, ← List.cons_append, not_or, ih,
        hasRange_cons, not_or, and_assoc]

theorem splitAtRange_append {before : List Token} {p q : Token} (h : RangeAfter before p q) (after : List Token) :
    splitAtRange (before ++ p :: q :: after) = some (before, p.pos, after) := by
  obtain ⟨hp, hq, hglued, hfirst, hapart⟩ := h
  have hnone := (hasRange_concat hp).mpr ⟨hfirst, hapart⟩
  clear hfirst hapart
  induction before with
  | nil => simp [splitAtRange, hp, hq, hglued]
  | cons t before ih =>
    obtain ⟨u, us, vs, hu, hv⟩ : ∃ u us vs, before ++ [p] = u :: us ∧ before ++ p :: q :: after = u :: vs := by
      cases before with
      | nil => exact ⟨p, [], _, rfl, rfl⟩
      | cons u before => exact ⟨u, _, _, rfl, rfl⟩
    rw [List.cons_append, hu, hasRange_cons, not_or, ← hu] at hnone
    have hsplit := ih hnone.2
    rw [hv] at hsplit
    rw [List.cons_append, hv, splitAtRange, if_neg hnone.1, hsplit]
    rfl

theorem exists_rangeAfter {ts before after : List Token} {pos : Option Position}
    (h : splitAtRange ts = some (before, pos, after)) :
    ∃ p q, ts = before ++ p :: q :: after ∧ p.pos = pos ∧ RangeAfter before p q := by
  suffices hexists : ∃ p q, ts = before ++ p :: q :: after ∧ p.pos = pos ∧ p.isPunct '.' = true ∧
      q.isPunct '.' = true ∧ q.glued = true ∧ ¬HasRange (before ++ [p]) by
    obtain ⟨p, q, hts, hpos, hp, hq, hglued, hnone⟩ := hexists
    obtain ⟨hfirst, hapart⟩ := (hasRange_concat hp).mp hnone
    exact ⟨p, q, hts, hpos, hp, hq, hglued, hfirst, hapart⟩
  fun_induction splitAtRange ts generalizing before with
  | case1 t u ts hdots =>
    cases h
    simp only [Bool.and_eq_true] at hdots
    exact ⟨t, u, rfl, rfl, hdots.1.1, hdots.1.2, hdots.2, not_hasRange_singleton t⟩
  | case2 t u ts hdots ih =>
    obtain ⟨⟨b, pos', a⟩, hsplit, heq⟩ := Option.map_eq_some_iff.mp h
    cases heq
    obtain ⟨p, q, hts, hpos, hp, hq, hglued, hnone⟩ := ih hsplit
    obtain ⟨us, hu⟩ : ∃ us, b ++ [p] = u :: us := by
      cases b with
      | nil => exact ⟨[], by rw [(List.cons.inj hts).1]; rfl⟩
      | cons v b => exact ⟨b ++ [p], by rw [(List.cons.inj hts).1]; rfl⟩
    refine ⟨p, q, by rw [hts]; rfl, hpos, hp, hq, hglued, ?_⟩
    rw [List.cons_append, hu, hasRange_cons, not_or, ← hu]
    exact ⟨hdots, hnone⟩
  | case3 => cases h

/-! ## The first word -/

theorem splitAtFirst_eq_none {p : Token → Bool} {ts : List Token} :
    splitAtFirst p ts = none ↔ ∀ t ∈ ts, p t = false := by
  induction ts with
  | nil => simp [splitAtFirst]
  | cons t ts ih =>
    unfold splitAtFirst
    split <;> simp_all

theorem splitAtFirst_append {p : Token → Bool} {before : List Token} {u : Token} (hbefore : ∀ t ∈ before, p t = false)
    (hu : p u = true) (after : List Token) : splitAtFirst p (before ++ u :: after) = some (before, u, after) := by
  induction before with
  | nil => simp [splitAtFirst, hu]
  | cons t before ih =>
    have ht := hbefore t (.head _)
    have hsplit := ih fun t ht => hbefore t (.tail _ ht)
    rw [List.cons_append, splitAtFirst, ht, if_neg Bool.false_ne_true, hsplit]
    rfl

theorem of_splitAtFirst {p : Token → Bool} {ts before after : List Token} {u : Token}
    (h : splitAtFirst p ts = some (before, u, after)) :
    ts = before ++ u :: after ∧ p u = true ∧ ∀ t ∈ before, p t = false := by
  induction ts generalizing before with
  | nil => cases h
  | cons t ts ih =>
    unfold splitAtFirst at h
    split at h
    · rename_i ht
      cases h
      exact ⟨rfl, ht, by simp⟩
    · rename_i ht
      obtain ⟨⟨b, v, a⟩, hsplit, heq⟩ := Option.map_eq_some_iff.mp h
      cases heq
      obtain ⟨rfl, hu, hb⟩ := ih hsplit
      exact ⟨rfl, hu, List.forall_mem_cons.mpr ⟨by simpa using ht, hb⟩⟩

/-! ## Headers -/

/-- The clause of a loop in which `v` counts from `first` up to `last`, or up to and including it. -/
def counting (v : Text) (first last : List Token) (closed : Bool) : List Token :=
  let var := Token.ident ⟨none, utf8 " ", v⟩
  [var, .punct ⟨none, utf8 " ", ':'⟩, mark none '='] ++ unplacedAll (dottedAll (spaced first)) ++
    [mark none ';', var, .punct ⟨none, utf8 " ", '<'⟩] ++ (if closed then [mark none '='] else []) ++
    unplacedAll (dottedAll (spaced last)) ++ [mark none ';', var, mark none '+', mark none '+']

/-- The clause of a loop in which `k` and `v` iterate over `expr`. -/
def iterating (k v : Text) (expr : List Token) : List Token :=
  [Token.ident ⟨none, utf8 " ", k⟩, mark none ',', .ident ⟨none, utf8 " ", v⟩, .punct ⟨none, utf8 " ", ':'⟩,
    mark none '=', .ident ⟨none, utf8 " ", utf8 "range"⟩] ++ unplacedAll (dottedAll (spaced expr))

/-- The header stands for the clause, whose tokens are at no position. -/
inductive Translates : List Token → List Token → Prop
  | upTo {v : Ident} {word p q : Token} {first last : List Token} : v.name ≠ utf8 "in" → word.isNamed "in" = true →
      RangeAfter first p q → first ≠ [] → last ≠ [] → (∀ t ∈ last.head?, t.isPunct '=' = true → t.glued = false) →
      Translates (.ident v :: word :: first ++ p :: q :: last) (counting v.name first last false)
  | through {v : Ident} {word p q eq : Token} {first last : List Token} : v.name ≠ utf8 "in" →
      word.isNamed "in" = true → RangeAfter first p q → first ≠ [] → last ≠ [] → eq.isPunct '=' = true →
      eq.glued = true →
      Translates (.ident v :: word :: first ++ p :: q :: eq :: last) (counting v.name first last true)
  | each {v : Ident} {word : Token} {expr : List Token} : v.name ≠ utf8 "in" → word.isNamed "in" = true →
      expr ≠ [] → ¬HasRange expr → Translates (.ident v :: word :: expr) (iterating (utf8 "_") v.name expr)
  | pairs {f : Frame} {k v : Ident} {comma word : Token} {expr : List Token} : f.delim = .parenthesis →
      comma.isPunct ',' = true → word.isNamed "in" = true → expr ≠ [] → ¬HasRange expr →
      Translates (.group f [.ident k, comma, .ident v] :: word :: expr) (iterating k.name v.name expr)
  | copied {header : List Token} : (∀ t ∈ header, t.isNamed "in" = false) →
      Translates header (unplacedAll (dottedAll header))

/-- A semicolon or `:=` stands among the tokens, as it does in a clause of the code. -/
def IsClause (ts : List Token) : Prop :=
  (∃ t ∈ ts, t.isPunct ';' = true) ∨ ∃ (before : List Token) (p q : Token) (after : List Token),
    ts = before ++ p :: q :: after ∧ p.isPunct ':' = true ∧ q.isPunct '=' = true ∧ q.glued = true

/-! ## Clauses -/

section Lower
variable (buf : Text)

theorem lower_rangeClause (v : Ident) (pos : Option Position) (first last : List Token) (closed : Bool) :
    unplacedAll (Code.lower buf (rangeClause v pos first last closed)) = counting v.name first last closed := by
  have hdefine : Code.Copies buf [keyword (.ident v) v.name " ", sign pos ':' " ", sign pos '=' ""]
      [.ident ⟨v.pos, utf8 " ", v.name⟩, .punct ⟨pos, utf8 " ", ':'⟩, .punct ⟨pos, utf8 "", '='⟩] :=
    .cons rfl rfl (.cons rfl rfl (.cons rfl rfl .nil))
  have hcompare : Code.Copies buf [sign pos ';' "", keyword (.ident v) v.name " ", sign pos '<' " "]
      [.punct ⟨pos, utf8 "", ';'⟩, .ident ⟨v.pos, utf8 " ", v.name⟩, .punct ⟨pos, utf8 " ", '<'⟩] :=
    .cons rfl rfl (.cons rfl rfl (.cons rfl rfl .nil))
  have hequals : Code.Copies buf (if closed then [sign pos '=' ""] else [])
      (if closed then [.punct ⟨pos, utf8 "", '='⟩] else []) := by
    cases closed with
    | false => exact .nil
    | true => exact .cons rfl rfl .nil
  have hcount : Code.Copies buf [sign pos ';' "", keyword (.ident v) v.name " ", sign pos '+' "", sign pos '+' ""]
      [.punct ⟨pos, utf8 "", ';'⟩, .ident ⟨v.pos, utf8 " ", v.name⟩, .punct ⟨pos, utf8 "", '+'⟩,
        .punct ⟨pos, utf8 "", '+'⟩] :=
    .cons rfl rfl (.cons rfl rfl (.cons rfl rfl (.cons rfl rfl .nil)))
  have hlower := (((((hdefine.append (.ofTokens (spaced first))).append hcompare).append hequals).append
    (.ofTokens (spaced last))).append hcount).lower_eq
  unfold rangeClause
  dsimp only
  rw [hlower, counting]
  simp only [unplacedAll_append]
  cases closed <;> rfl

theorem lower_iterationClause (vars : Ident × Option Ident) (word : Token) (expr : List Token) :
    unplacedAll (Code.lower buf (iterationClause vars word expr)) = match vars with
      | (v, none) => iterating (utf8 "_") v.name expr
      | (k, some v) => iterating k.name v.name expr := by
  have hlower (k v : Ident) (key value : Text) : unplacedAll (Code.lower buf
      ([keyword (.ident k) key " ", sign word.pos ',' "", keyword (.ident v) value " ", sign word.pos ':' " ",
        sign word.pos '=' "", keyword word (utf8 "range") " "] ++ Node.ofTokens (spaced expr))) =
      iterating key value expr := by
    have hhead : Code.Copies buf [keyword (.ident k) key " ", sign word.pos ',' "", keyword (.ident v) value " ",
        sign word.pos ':' " ", sign word.pos '=' "", keyword word (utf8 "range") " "]
        [.ident ⟨k.pos, utf8 " ", key⟩, .punct ⟨word.pos, utf8 "", ','⟩, .ident ⟨v.pos, utf8 " ", value⟩,
          .punct ⟨word.pos, utf8 " ", ':'⟩, .punct ⟨word.pos, utf8 "", '='⟩,
          .ident ⟨word.pos, utf8 " ", utf8 "range"⟩] :=
      .cons rfl rfl (.cons rfl rfl (.cons rfl rfl (.cons rfl rfl (.cons rfl rfl (.cons rfl rfl .nil)))))
    rw [(hhead.append (.ofTokens (spaced expr))).lower_eq, unplacedAll_append]
    rfl
  obtain ⟨v, second⟩ := vars
  cases second with
  | none => exact hlower v v (utf8 "_") v.name
  | some w => exact hlower v w v.name w.name

end Lower

theorem patternClause_range {v : Ident} {word p q : Token} {first after : List Token} (h : RangeAfter first p q)
    (hfirst : first ≠ []) {last : List Token} {closed : Bool} (hlast : last ≠ [])
    (hafter : (after.head?.any fun t => t.isPunct '=' && t.glued) = closed)
    (heq : (if closed then after.tail else after) = last) :
    patternClause (v, none) word (first ++ p :: q :: after) = .ok (rangeClause v p.pos first last closed) := by
  have hexpr : (first ++ p :: q :: after).isEmpty = false := by simp
  rw [patternClause, hexpr, if_neg Bool.false_ne_true, splitAtRange_append h]
  simp [hafter, heq, hfirst, hlast]

theorem patternClause_each {vars : Ident × Option Ident} {word : Token} {expr : List Token} (hne : expr ≠ [])
    (h : ¬HasRange expr) : patternClause vars word expr = .ok (iterationClause vars word expr) := by
  have hexpr : expr.isEmpty = false := by simpa using hne
  rw [patternClause, hexpr, if_neg Bool.false_ne_true, splitAtRange_eq_none.mpr h]

/-- What is before the first `in` names the variables. -/
theorem forClause_append {before : List Token} {word : Token} (hbefore : ∀ t ∈ before, t.isNamed "in" = false)
    (hword : word.isNamed "in" = true) (expr : List Token) :
    forClause (before ++ word :: expr) = pattern before word.pos >>= fun vars => patternClause vars word expr := by
  rw [forClause, splitAtFirst_append hbefore hword]

theorem forClause_of_translates (buf : Text) {header clause : List Token} (h : Translates header clause) :
    ∃ nodes, forClause header = .ok nodes ∧ unplacedAll (Code.lower buf nodes) = clause := by
  have hident {v : Ident} (hv : v.name ≠ utf8 "in") : ∀ t ∈ [Token.ident v], t.isNamed "in" = false := by
    simpa [isNamed] using hv
  cases h with
  | @upTo v word p q first last hv hword hrange hfirst hlast hopen =>
    have hafter : (last.head?.any fun t => t.isPunct '=' && t.glued) = false := by
      cases last with
      | nil => rfl
      | cons t last =>
        rw [List.head?_cons, Option.any_some, Bool.and_eq_false_imp]
        exact hopen t rfl
    exact ⟨_, (forClause_append (hident hv) hword _).trans (patternClause_range hrange hfirst hlast hafter rfl),
      lower_rangeClause buf v p.pos first last false⟩
  | @through v word p q eq first last hv hword hrange hfirst hlast heq hglued =>
    have hafter : ((eq :: last).head?.any fun t => t.isPunct '=' && t.glued) = true := by simp [heq, hglued]
    exact ⟨_, (forClause_append (hident hv) hword _).trans (patternClause_range hrange hfirst hlast hafter rfl),
      lower_rangeClause buf v p.pos first last true⟩
  | each hv hword hne hnone =>
    exact ⟨_, (forClause_append (hident hv) hword _).trans (patternClause_each hne hnone),
      lower_iterationClause buf _ _ _⟩
  | @pairs f k v comma word expr hdelim hcomma hword hne hnone =>
    have hpattern : pattern [.group f [.ident k, comma, .ident v]] word.pos = .ok (k, some v) := by
      simp [pattern, hdelim, hcomma]
    have hgroup : ∀ t ∈ [Token.group f [.ident k, comma, .ident v]], t.isNamed "in" = false := by simp [isNamed]
    refine ⟨_, (forClause_append hgroup hword expr).trans ?_, lower_iterationClause buf (k, some v) word expr⟩
    rw [hpattern]
    exact patternClause_each hne hnone
  | copied h =>
    refine ⟨Node.ofTokens header, ?_, congrArg unplacedAll (Code.lower_ofTokens buf header)⟩
    rw [forClause, splitAtFirst_eq_none.mpr h]

/-- The variables of an accepted pattern, and how it is written. -/
theorem of_pattern {before : List Token} {pos : Option Position} {vars : Ident × Option Ident}
    (h : pattern before pos = .ok vars) :
    (∃ v, before = [.ident v] ∧ vars = (v, none)) ∨
      ∃ f k comma v, before = [.group f [.ident k, comma, .ident v]] ∧ f.delim = .parenthesis ∧
        comma.isPunct ',' = true ∧ vars = (k, some v) := by
  unfold pattern at h
  split at h
  · rename_i v
    cases h
    exact .inl ⟨v, rfl, rfl⟩
  · rename_i f k comma v
    split at h
    · rename_i hparts
      cases h
      simp only [Bool.and_eq_true, decide_eq_true_eq] at hparts
      exact .inr ⟨f, k, comma, v, rfl, hparts.1, hparts.2, rfl⟩
    · cases h
  · cases h
  · cases h

/-- An accepted range has a beginning, an end and one variable. -/
theorem of_patternClause_range {vars : Ident × Option Ident} {word p q : Token} {first after : List Token}
    {nodes : List Node} (hrange : RangeAfter first p q)
    (h : patternClause vars word (first ++ p :: q :: after) = .ok nodes) :
    ∃ v last closed, vars = (v, none) ∧ first ≠ [] ∧ last ≠ [] ∧ nodes = rangeClause v p.pos first last closed ∧
      (after.head?.any fun t => t.isPunct '=' && t.glued) = closed ∧ (if closed then after.tail else after) = last := by
  have hexpr : (first ++ p :: q :: after).isEmpty = false := by simp
  rw [patternClause, hexpr, if_neg Bool.false_ne_true, splitAtRange_append hrange] at h
  dsimp only at h
  generalize hclosed : (after.head?.any fun t => t.isPunct '=' && t.glued) = closed at h
  generalize hlast : (if closed = true then after.tail else after) = last at h
  by_cases hempty : (first.isEmpty || last.isEmpty) = true
  · rw [if_pos hempty] at h
    cases h
  · obtain ⟨v, second⟩ := vars
    cases second with
    | some => simp [hempty] at h
    | none =>
      rw [if_neg hempty] at h
      cases h
      simp only [Bool.or_eq_true, List.isEmpty_iff, not_or] at hempty
      exact ⟨v, last, closed, rfl, hempty.1, hempty.2, rfl, rfl, hlast⟩

theorem translates_of_forClause (buf : Text) {header : List Token} {nodes : List Node}
    (h : forClause header = .ok nodes) : Translates header (unplacedAll (Code.lower buf nodes)) := by
  cases hsplit : splitAtFirst (·.isNamed "in") header with
  | none =>
    rw [forClause, hsplit] at h
    cases h
    rw [Code.lower_ofTokens]
    exact .copied (splitAtFirst_eq_none.mp hsplit)
  | some split =>
    obtain ⟨before, word, expr⟩ := split
    obtain ⟨rfl, hword, hbefore⟩ := of_splitAtFirst hsplit
    rw [forClause_append hbefore hword] at h
    obtain ⟨vars, hpattern, hclause⟩ : ∃ vars, pattern before word.pos = .ok vars ∧
        patternClause vars word expr = .ok nodes := by
      cases hvars : pattern before word.pos with
      | error e =>
        rw [hvars] at h
        cases h
      | ok vars =>
        rw [hvars] at h
        exact ⟨vars, rfl, h⟩
    cases hrange : splitAtRange expr with
    | none =>
      have hne : expr ≠ [] := by
        rintro rfl
        cases hclause
      have hnone := splitAtRange_eq_none.mp hrange
      rw [patternClause_each hne hnone] at hclause
      cases hclause
      rw [lower_iterationClause]
      obtain ⟨v, rfl, rfl⟩ | ⟨f, k, comma, v, rfl, hdelim, hcomma, rfl⟩ := of_pattern hpattern
      · exact .each (by simpa [isNamed] using hbefore) hword hne hnone
      · exact .pairs hdelim hcomma hword hne hnone
    | some split =>
      obtain ⟨first, pos, after⟩ := split
      obtain ⟨p, q, rfl, rfl, hdots⟩ := exists_rangeAfter hrange
      obtain ⟨v, last, closed, rfl, hfirst, hlast, rfl, hclosed, rfl⟩ := of_patternClause_range hdots hclause
      obtain ⟨u, rfl, hu⟩ | ⟨f, k, comma, u, -, -, -, hu⟩ := of_pattern hpattern
      swap
      · cases hu
      cases hu
      have hv : v.name ≠ utf8 "in" := by simpa [isNamed] using hbefore
      rw [lower_rangeClause]
      cases after with
      | nil => cases closed <;> exact (hlast rfl).elim
      | cons t after =>
        rw [List.head?_cons, Option.any_some] at hclosed
        subst hclosed
        cases hequals : t.isPunct '=' && t.glued with
        | false =>
          refine .upTo hv hword hdots hfirst (List.cons_ne_nil t after) ?_
          simpa using hequals
        | true =>
          rw [hequals] at hlast
          simp only [Bool.and_eq_true] at hequals
          exact .through hv hword hdots hfirst hlast hequals.1 hequals.2

/-- What is wrong with tokens that are taken for the variables of a loop. -/
def patternError (pos : Option Position) : List Token → Error
  | [t] => .at? t.pos (.unexpected t .inPattern)
  | _ => .at? pos .invalidPattern

/-- Nothing with a semicolon or `:=` in it names the variables of a loop. -/
theorem pattern_of_isClause {before : List Token} (h : IsClause before) (pos : Option Position) :
    pattern before pos = .error (patternError pos before) := by
  match before, h with
  | [], h =>
    rcases h with ⟨t, ht, -⟩ | ⟨before, p, q, after, heq, -⟩
    · cases ht
    · simp at heq
  | [t], h =>
    have ht : t.isPunct ';' = true := by
      rcases h with ⟨u, hu, hsemicolon⟩ | ⟨before, p, q, after, heq, -⟩
      · rwa [← List.mem_singleton.mp hu]
      · have hlength := congrArg List.length heq
        simp only [List.length_cons, List.length_nil, List.length_append] at hlength
        omega
    cases t with
    | punct => rfl
    | _ => cases ht
  | t :: u :: ts, _ =>
    unfold pattern
    split <;> first | rfl | simp_all

/-- The headers that are accepted are those that stand for a clause, and they are lowered to it. A clause of the code is
among them only if no variable in it is named `in`: what is before that name is taken for the variables of the loop. -/
theorem forClause_translates (buf : Text) (header : List Token) :
    (∀ clause, (∃ nodes, forClause header = .ok nodes ∧ unplacedAll (Code.lower buf nodes) = clause) ↔
      Translates header clause) ∧
    ∀ (before : List Token) (word : Token) (after : List Token), header = before ++ word :: after →
      IsClause before → (∀ t ∈ before, t.isNamed "in" = false) → word.isNamed "in" = true →
      forClause header = .error (patternError word.pos before) := by
  refine ⟨fun clause => ⟨?_, forClause_of_translates buf⟩, ?_⟩
  · rintro ⟨nodes, hnodes, rfl⟩
    exact translates_of_forClause buf hnodes
  · rintro before word after rfl hclause hbefore hword
    rw [forClause_append hbefore hword, pattern_of_isClause hclause]
    rfl

/-- `i in x::min..=in` counts, and `i := 0; i < in` is refused. -/
theorem forClause_translates_in :
    let word (name : String) : Token := .ident ⟨none, utf8 " ", utf8 name⟩
    let mark (c : Char) : Token := .mark none c
    let name : Token := .word none (utf8 "min")
    let first := [word "x", mark ':', mark ':', name]
    let before := [word "i", mark ':', mark '=', word "0", mark ';', word "i", mark '<']
    (∃ nodes,
      forClause (word "i" :: word "in" :: first ++ mark '.' :: mark '.' :: mark '=' :: [word "in"]) = .ok nodes ∧
      unplacedAll (Code.lower (utf8 "html") nodes) = counting (utf8 "i") first [word "in"] true) ∧
    forClause (before ++ word "in" :: []) = .error (.at? none .invalidPattern) := by
  intro word mark name first before
  have hrange : RangeAfter first (mark '.') (mark '.') := by
    refine ⟨rfl, rfl, rfl, splitAtRange_eq_none.mp rfl, ?_⟩
    intro t ht hpoint
    cases ht
    cases hpoint
  constructor
  · exact ((forClause_translates (utf8 "html") _).1 _).mpr
      (.through (v := ⟨none, utf8 " ", utf8 "i"⟩) (by decide) rfl hrange (by simp [first]) (by simp) rfl rfl)
  · exact (forClause_translates (utf8 "html") _).2 before (word "in") [] rfl (.inl ⟨mark ';', by simp [before], rfl⟩)
      (by decide) rfl

end Directive
end Atmark
