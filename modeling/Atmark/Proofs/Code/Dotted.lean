import Atmark.Proofs.Parse.Copied
import Atmark.Proofs.Token.Printed

/-! Code that is taken over token by token. A path separator `::` before an identifier becomes a dot, and nothing else
changes (`Code.lower_ofTokens`); so the code of a declaration, printed and read again, is the same tree of tokens
(`Code.lex_format_ofTokens`). -/
namespace Atmark

namespace Token

mutual

/-- The token with a dot for every path separator in it. -/
def dotted : Token → Token
  | .ident t => .ident t
  | .literal t => .literal t
  | .punct t => .punct t
  | .group f ts => .group f (dottedFrom false ts)

/-- Tokens with a dot for every path separator, without the first one if it is the rest of a path separator. -/
def dottedFrom (skip : Bool) : List Token → List Token
  | [] => []
  | t :: ts =>
    if skip then dottedFrom false ts
    else if Node.isPathSeparator t ts then .punct ⟨t.pos, t.space, '.'⟩ :: dottedFrom true ts
    else dotted t :: dottedFrom false ts

end

/-- Tokens with a dot for every path separator `::` before an identifier. -/
def dottedAll (ts : List Token) : List Token := dottedFrom false ts

/-- No path separator goes on over a character other than a colon. -/
theorem dottedFrom_append {u : Token} (hu : u.isPunct ':' = false) (hident : u.isIdent = false) {skip : Bool}
    {ts : List Token} (hskip : skip = true → ts ≠ []) (us : List Token) :
    dottedFrom skip (ts ++ u :: us) = dottedFrom skip ts ++ dottedAll (u :: us) := by
  induction ts generalizing skip with
  | nil =>
    cases skip with
    | false => rfl
    | true => exact (hskip rfl rfl).elim
  | cons t ts ih =>
    have hsame : Node.isPathSeparator t (ts ++ u :: us) = Node.isPathSeparator t ts := by
      match ts with
      | [] => cases us <;> simp [Node.isPathSeparator, hu]
      | [v] => cases us <;> simp [Node.isPathSeparator, hident]
      | v :: w :: ts => rfl
    rw [List.cons_append, dottedFrom, dottedFrom, hsame]
    cases skip with
    | true => exact ih (by simp)
    | false =>
      rw [if_neg Bool.false_ne_true, if_neg Bool.false_ne_true]
      split
      · rename_i hseparator
        have hts : ts ≠ [] := by
          rintro rfl
          simp [Node.isPathSeparator] at hseparator
        rw [ih fun _ => hts, List.cons_append]
      · rw [ih (by simp), List.cons_append]

/-- No path separator is at the end of the tokens. -/
theorem getLast?_dottedFrom {skip : Bool} {ts : List Token} {t : Token} (h : ts.getLast? = some t)
    (hskip : skip = true → 2 ≤ ts.length) : (dottedFrom skip ts).getLast? = some t.dotted := by
  induction ts generalizing skip with
  | nil => cases h
  | cons u ts ih =>
    rw [dottedFrom]
    cases ts with
    | nil =>
      cases h
      cases skip with
      | true => exact absurd (hskip rfl) (by simp)
      | false => simp [Node.isPathSeparator, dottedFrom]
    | cons v ts =>
      rw [List.getLast?_cons_cons] at h
      cases skip with
      | true =>
        rw [if_pos rfl]
        exact ih h (by simp)
      | false =>
        rw [if_neg Bool.false_ne_true]
        split
        · rename_i hseparator
          have hlength : 2 ≤ (v :: ts).length := by
            cases ts with
            | nil => simp [Node.isPathSeparator] at hseparator
            | cons => simp
          rw [List.getLast?_cons, ih h fun _ => hlength]
          rfl
        · have hlast : (dottedFrom false (v :: ts)).getLast? = some t.dotted := ih h (by simp)
          rw [List.getLast?_cons, hlast]
          rfl

mutual

/-- No colon in the token stands directly before another one. -/
def colonsApart : Token → Bool
  | .group _ ts => colonsApartAll ts
  | _ => true

/-- No colon among the tokens, at any depth, stands directly before another one. -/
def colonsApartAll : List Token → Bool
  | [] => true
  | t :: ts => !(t.isPunct ':' && ts.head?.any fun u => u.isPunct ':' && u.glued) && colonsApart t && colonsApartAll ts

end

theorem isPathSeparator_of_apart {t : Token} {ts : List Token} (h : colonsApartAll (t :: ts) = true) :
    Node.isPathSeparator t ts = false := by
  simp only [colonsApartAll, Bool.and_eq_true, Bool.not_eq_true'] at h
  cases ts with
  | nil => simp [Node.isPathSeparator]
  | cons u ts =>
    have happart : (t.isPunct ':' && (u.isPunct ':' && u.glued)) = false := h.1.1
    cases ts with
    | nil => simp [Node.isPathSeparator]
    | cons v ts =>
      unfold Node.isPathSeparator
      grind

mutual

theorem dotted_eq_self : (t : Token) → colonsApart t = true → dotted t = t
  | .ident _, _ | .literal _, _ | .punct _, _ => rfl
  | .group f ts, h => by rw [dotted, ← dottedAll, dottedAll_eq_self ts h]

/-- Without path separators nothing changes. -/
theorem dottedAll_eq_self : (ts : List Token) → colonsApartAll ts = true → dottedAll ts = ts
  | [], _ => rfl
  | t :: ts, h => by
    have hseparator := isPathSeparator_of_apart h
    simp only [colonsApartAll, Bool.and_eq_true] at h
    rw [dottedAll, dottedFrom, hseparator, if_neg Bool.false_ne_true, if_neg Bool.false_ne_true, dotted_eq_self t h.1.2,
      ← dottedAll, dottedAll_eq_self ts h.2]

end

end Token

namespace Code
variable (buf : Text)

mutual

theorem nodePieces_dotted : (t : Token) → nodePieces buf (.ofToken t) = [⟨[t.dotted], false⟩]
  | .ident _ | .literal _ | .punct _ => rfl
  | .group f ts => by
    rw [Node.ofToken, nodePieces, piecesFrom_dotted ts false, join, joinFrom_tokens, Token.dotted]

theorem piecesFrom_dotted : (ts : List Token) → ∀ skip,
    piecesFrom buf [] none (Node.ofTokensFrom skip ts) = (Token.dottedFrom skip ts).map fun t => ⟨[t], false⟩
  | [], _ => rfl
  | t :: ts, skip => by
    unfold Node.ofTokensFrom Token.dottedFrom
    split
    · exact piecesFrom_dotted ts false
    · split
      · rw [piecesFrom_cons buf _ _ _ rfl, piecesFrom_dotted ts true]
        rfl
      · have htext : (Node.ofToken t).isText = false := by cases t <;> rfl
        rw [piecesFrom_cons buf _ _ _ htext, nodePieces_dotted t, piecesFrom_dotted ts false]
        rfl

end

/-- Tokens are lowered one by one, with dots for path separators. -/
theorem lower_ofTokens (ts : List Token) : lower buf (Node.ofTokens ts) = Token.dottedAll ts := by
  rw [lower, Node.ofTokens, piecesFrom_dotted, join, joinFrom_tokens, Token.dottedAll]

/-- Nothing is left for later in tokens, and nothing is read for them. -/
theorem ofNodes_ofTokens (settings : Settings) (ts : List Token) (w : World) :
    ofNodes settings (Node.ofTokens ts) w = .ok (Token.dottedAll ts) w := by
  have hresolve : resolve settings (Node.ofTokens ts) w = .ok (Node.ofTokens ts) w :=
    resolve_ofTokensFrom settings w ts false
  simp only [ofNodes, bind, EStateM.bind, hresolve, lower_ofTokens]
  rfl

/-- The tokens of a source, taken over as code and printed, are read as the same tree of tokens: the same
identifiers, literals, characters and groups in the same order. Two things are excepted: a quote that stands for
itself, and two colons in a row, which may be a path separator. -/
theorem lex_format_ofTokens {src left : Text} {ts : List Token} (settings : Settings) (w : World)
    (hlex : Token.lex src = .ok (ts, left)) (hquote : ∀ p, Token.Inside (.punct p) ts → p.char ≠ '\'')
    (hcolons : Token.colonsApartAll ts = true) :
    ∃ code again trailing, ofNodes settings (Node.ofTokens ts) w = .ok code w ∧
      Token.lex (Token.format code) = .ok (again, trailing) ∧ Token.strippedAll again = Token.strippedAll ts := by
  obtain ⟨again, hagain, hsame⟩ := Token.lex_format hlex hquote
  have hcode := ofNodes_ofTokens settings ts w
  rw [Token.dottedAll_eq_self ts hcolons] at hcode
  exact ⟨ts, again, Token.trail [] ts, hcode, hagain, hsame⟩

/-- A function with statements on one line, a space before a closing parenthesis and words that touch literals. -/
def crowdedFunction : Text := utf8 "func f(x int ) \x7b if x>0 \x7breturn g[x]+'a';\x7d \n\n\x7d"

/-- Printed as code, it is read as the same tree of tokens. -/
theorem lex_format_ofTokens_function :
    ∃ ts left code again trailing, Token.lex crowdedFunction = .ok (ts, left) ∧
      (∀ p, Token.Inside (.punct p) ts → p.char ≠ '\'') ∧ Token.colonsApartAll ts = true ∧
      ofNodes { markdown := .ok } (Node.ofTokens ts) {} = .ok code {} ∧
      Token.lex (Token.format code) = .ok (again, trailing) ∧ Token.strippedAll again = Token.strippedAll ts := by
  have hpasses : (Token.lex crowdedFunction).toOption.any (fun found =>
      (Token.flatten found.1).all (fun | .leaf _ (.punct c) _ => c ≠ '\'' | _ => true) &&
        Token.colonsApartAll found.1) = true := by decide +kernel
  cases hlex : Token.lex crowdedFunction with
  | error e =>
    rw [hlex] at hpasses
    cases hpasses
  | ok found =>
    obtain ⟨ts, left⟩ := found
    simp only [hlex, Except.toOption, Option.any_some, Bool.and_eq_true, List.all_eq_true] at hpasses
    have hquote (p : Punct) (hp : Token.Inside (.punct p) ts) : p.char ≠ '\'' := by
      simpa using hpasses.1 _ (Token.mem_flatten_of_inside hp (.head _))
    obtain ⟨code, again, trailing, hcode, hagain, hsame⟩ :=
      lex_format_ofTokens { markdown := .ok } {} hlex hquote hpasses.2
    exact ⟨ts, left, code, again, trailing, rfl, hquote, hpasses.2, hcode, hagain, hsame⟩

end Code
end Atmark
