import Atmark.Parse.TypeName
import Atmark.Proofs.Parse.Passing

/-! Types are read exactly. `TypeTree` is the syntax of types, with the white space that may stand in them and
the type in code that each one stands for. What is read is a type (`typeName_spells`), and before tokens that
would not go on with it every type is read as a whole (`typeName_takes`). -/
namespace Atmark
open ParseM

/-! ## Types as they are written -/

mutual

/-- A type as it is written, with the white space that may stand in it: stars and empty brackets before a path,
which may end with arguments. -/
inductive TypeTree where
  | star (pos : Option Position) (type : TypeTree)
  | slice (pos : Option Position) (inside : Text) (type : TypeTree)
  | named (pos : Option Position) (name : Text) (path : TypePath)

/-- What follows the first identifier of a path. -/
inductive TypePath where
  | done
  | dot (pos namePos : Option Position) (name : Text) (path : TypePath)
  | colons (pos pos' namePos : Option Position) (name : Text) (path : TypePath)
  | args (pos : Option Position) (args : TypeArgs)

/-- The arguments after `<`, each with the white space before and after it, and what ends it. -/
inductive TypeArgs where
  | last (before : Text) (type : TypeTree) (after : Text) (pos : Option Position)
  | more (before : Text) (type : TypeTree) (after : Text) (pos : Option Position) (args : TypeArgs)

end

mutual

/-- The tokens of a type after white space. -/
def TypeTree.tokens (space : Text) : TypeTree → List Token
  | .star pos type => .punct ⟨pos, space, '*'⟩ :: type.tokens []
  | .slice pos inside type => .group ⟨pos, space, .bracket, inside⟩ [] :: type.tokens []
  | .named pos name path => .ident ⟨pos, space, name⟩ :: path.tokens

/-- The tokens of the rest of a path. -/
def TypePath.tokens : TypePath → List Token
  | .done => []
  | .dot pos namePos name path => .punct ⟨pos, [], '.'⟩ :: .ident ⟨namePos, [], name⟩ :: path.tokens
  | .colons pos pos' namePos name path =>
    .punct ⟨pos, [], ':'⟩ :: .punct ⟨pos', [], ':'⟩ :: .ident ⟨namePos, [], name⟩ :: path.tokens
  | .args pos args => .punct ⟨pos, [], '<'⟩ :: args.tokens

/-- The tokens of arguments, up to the closing `>`. -/
def TypeArgs.tokens : TypeArgs → List Token
  | .last before type after pos => type.tokens before ++ [.punct ⟨pos, after, '>'⟩]
  | .more before type after pos args => type.tokens before ++ .punct ⟨pos, after, ','⟩ :: args.tokens

end

mutual

/-- The type in code. -/
def TypeTree.code : TypeTree → List Token
  | .star pos type => .mark pos '*' :: type.code
  | .slice pos _ type => .enclose pos .bracket [] :: type.code
  | .named pos name path => .word pos name :: path.code

/-- The rest of a path in code: it has dots, and the arguments are in brackets. -/
def TypePath.code : TypePath → List Token
  | .done => []
  | .dot pos namePos name path => .mark pos '.' :: .word namePos name :: path.code
  | .colons pos _ namePos name path => .mark pos '.' :: .word namePos name :: path.code
  | .args pos args => [.enclose pos .bracket args.code]

/-- The arguments in code, with commas between them. -/
def TypeArgs.code : TypeArgs → List Token
  | .last _ type _ _ => type.code
  | .more _ type _ pos args => type.code ++ .mark pos ',' :: args.code

end

/-- The path ends with arguments, so that nothing can go on after it. -/
def TypePath.isGeneric : TypePath → Bool
  | .done => false
  | .dot _ _ _ path | .colons _ _ _ _ path => path.isGeneric
  | .args .. => true

/-- The type ends with arguments. -/
def TypeTree.isGeneric : TypeTree → Bool
  | .star _ type | .slice _ _ type => type.isGeneric
  | .named _ _ path => path.isGeneric

/-- The tokens would go on with the path before them: colons, arguments, or a dot and an identifier. -/
def Token.goOnPath : List Token → Bool
  | [] => false
  | t :: ts => t.glued && (t.isPunct ':' || t.isPunct '<' ||
      t.isPunct '.' && ts.head?.any fun u => u.isIdent && u.glued)

theorem TypeTree.tokens_eq_cons (type : TypeTree) (space : Text) :
    ∃ t ts, type.tokens space = t :: ts ∧ t.space = space := by
  cases type <;> exact ⟨_, _, rfl, rfl⟩

theorem TypeTree.length_tokens_pos (type : TypeTree) (space : Text) :
    0 < (type.tokens space).length := by
  obtain ⟨t, ts, htokens, -⟩ := type.tokens_eq_cons space
  simp [htokens]

/-! ## Reading takes a type -/

namespace ParseM
variable {s u : State} {code : List Token} {arguments : Option Position → ParseM (List Token)}

/-- The arguments that are read after `<` are arguments. -/
def Spells (arguments : Option Position → ParseM (List Token)) : Prop :=
  ∀ pos s code u, Returns (arguments pos) s code u →
    ∃ args : TypeArgs, s.Passes args.tokens u ∧ code = args.code

/-- What is read after an identifier is the rest of a path, and nothing that would go on with it is left. -/
theorem typePath_spells (ha : Spells arguments) {ts : List Token} (hs : s.stream.rest = ts)
    (h : Returns (typePath arguments ts) s code u) : ∃ path : TypePath, s.Passes path.tokens u ∧
      code = path.code ∧ (path.isGeneric = true ∨ Token.goOnPath u.stream.rest = false) := by
  fun_induction typePath arguments ts generalizing s u code with
  | case1 =>
    obtain ⟨rfl, rfl⟩ := h.pure
    exact ⟨.done, .refl _, rfl, .inr (by rw [hs]; rfl)⟩
  | case2 tok ts hspaced =>
    obtain ⟨rfl, rfl⟩ := h.pure
    exact ⟨.done, .refl _, rfl, .inr (by simp_all [Token.goOnPath])⟩
  | case3 tok ts hglued ihPath ihDot =>
    obtain ⟨_, s₁, hlast, h₁⟩ := h.bind
    have hs₁ := hlast.setLast_passes
    have hrest := hs₁.rest_eq hs
    have hspace : tok.space = [] := by simpa [Token.glued] using hglued
    -- A segment of the path is passed over, and the path goes on behind it.
    have hsegment (xs : List Token) {m w : Token} {ts' : List Token} {k : Nat} (hxs : tok :: ts = xs ++ ts')
        (hk : xs.length = k)
        (ih : ∀ {s u : State} {code : List Token}, s.stream.rest = ts' →
          Returns (typePath arguments ts') s code u →
          ∃ path : TypePath, s.Passes path.tokens u ∧ code = path.code ∧
            (path.isGeneric = true ∨ Token.goOnPath u.stream.rest = false))
        (h : Returns (do skip k; return m :: w :: (← typePath arguments ts')) s₁ code u) :
        ∃ path : TypePath, s.Passes (xs ++ path.tokens) u ∧ code = m :: w :: path.code ∧
          (path.isGeneric = true ∨ Token.goOnPath u.stream.rest = false) := by
      obtain ⟨_, s₂, hskip, h₂⟩ := h.bind
      have hs₂ := hskip.skip_passes xs (hrest.trans hxs) hk
      obtain ⟨code', s₃, hpath, h₃⟩ := h₂.bind
      obtain ⟨rfl, rfl⟩ := h₃.pure
      obtain ⟨path, hs₃, rfl, hend⟩ := ih (hs₂.rest_eq (hrest.trans hxs)) hpath
      exact ⟨path, hs₁.trans (hs₂.trans hs₃), rfl, hend⟩
    have hdone (hends : Token.goOnPath (tok :: ts) = false) (h : Returns (pure []) s₁ code u) :
        ∃ path : TypePath, s.Passes path.tokens u ∧ code = path.code ∧
          (path.isGeneric = true ∨ Token.goOnPath u.stream.rest = false) := by
      obtain ⟨rfl, rfl⟩ := h.pure
      exact ⟨.done, hs₁, rfl, .inr (hrest ▸ hends)⟩
    split at h₁
    · rename_i hcolon
      obtain ⟨hcolons, h₁⟩ := h₁.guard
      split at h₁
      · rename_i c n ts' _
        split at h₁
        · rename_i hn
          obtain ⟨path, hpath, rfl, hend⟩ := hsegment [tok, c, .ident n] rfl rfl ihPath h₁
          obtain ⟨hc, hcspace⟩ : c.isPunct ':' = true ∧ c.space = [] := by
            have hn : Token.isPunct ':' (.ident n) = false := rfl
            simpa [colons, hcolon, gluedColons, hn, Token.glued] using hcolons
          obtain ⟨npos, nspace, name⟩ := n
          obtain rfl : nspace = [] := by simpa using hn
          rw [Token.eq_punct hcolon, hspace, Token.eq_punct hc, hcspace] at hpath
          exact ⟨.colons tok.pos c.pos npos name path, hpath, rfl, hend⟩
        · exact h₁.fail.elim
      · exact h₁.fail.elim
    rename_i hcolon
    split at h₁
    · rename_i hdot
      split at h₁
      · rename_i n ts'
        split at h₁
        · rename_i hn
          obtain ⟨path, hpath, rfl, hend⟩ := hsegment [tok, .ident n] rfl rfl ihDot h₁
          obtain ⟨npos, nspace, name⟩ := n
          obtain rfl : nspace = [] := by simpa using hn
          rw [Token.eq_punct hdot, hspace] at hpath
          exact ⟨.dot tok.pos npos name path, hpath, rfl, hend⟩
        · rename_i hn
          refine hdone ?_ h₁
          rw [Token.eq_punct hdot]
          simp [Token.goOnPath, Token.isPunct, Token.isIdent, Token.glued, Token.space, hn]
      · rename_i hn
        refine hdone ?_ h₁
        rw [Token.eq_punct hdot]
        cases ts with
        | nil => simp [Token.goOnPath, Token.isPunct]
        | cons t ts =>
          cases t with
          | ident n => exact (hn n ts rfl).elim
          | _ => simp [Token.goOnPath, Token.isPunct, Token.isIdent]
    rename_i hdot
    split at h₁
    · rename_i hlt
      obtain ⟨_, s₂, hskip, h₂⟩ := h₁.bind
      have hs₂ := hskip.skip_passes [tok] hrest rfl
      obtain ⟨code', s₃, hargs, h₃⟩ := h₂.bind
      obtain ⟨rfl, rfl⟩ := h₃.pure
      obtain ⟨args, hs₃, rfl⟩ := ha _ _ _ _ hargs
      have hpath := hs₁.trans (hs₂.trans hs₃)
      rw [Token.eq_punct hlt, hspace] at hpath
      exact ⟨.args tok.pos args, hpath, rfl, .inl rfl⟩
    · rename_i hlt
      exact hdone (by simp [Token.goOnPath, hcolon, hdot, hlt]) h₁

/-- What is read at the beginning of a type is a type. -/
theorem typeFrom_spells (ha : Spells arguments) {ts : List Token} (hs : s.stream.rest = ts)
    (h : Returns (typeFrom arguments ts) s code u) : ∃ (type : TypeTree) (space : Text),
      s.Passes (type.tokens space) u ∧ code = type.code ∧
        (type.isGeneric = true ∨ Token.goOnPath u.stream.rest = false) := by
  induction ts generalizing s u code with
  | nil =>
    obtain ⟨_, _, -, h₁⟩ := h.bind
    exact h₁.fail.elim
  | cons tok ts ih =>
    unfold typeFrom at h
    split at h
    · rename_i hstarts
      obtain ⟨_, s₁, hskip, h₁⟩ := h.bind
      have hs₁ := hskip.skip_passes [tok] hs rfl
      split at h₁
      · rename_i hglued
        obtain ⟨code', s₂, htype, h₂⟩ := h₁.bind
        obtain ⟨rfl, rfl⟩ := h₂.pure
        have hrest := hs₁.rest_eq hs
        obtain ⟨type, space, hs₂, rfl, hend⟩ := ih hrest htype
        obtain ⟨t, ts', htokens, rfl⟩ := type.tokens_eq_cons space
        have hspace : t.space = [] := by
          rw [← hrest, hs₂.rest, htokens] at hglued
          simpa [Token.glued] using hglued
        rw [hspace] at hs₂
        have htree := hs₁.trans hs₂
        cases tok with
        | punct p =>
          obtain ⟨pos, space', char⟩ := p
          obtain rfl : char = '*' := by simpa [isTypePrefix] using hstarts
          exact ⟨.star pos type, space', htree, rfl, hend⟩
        | group f cs =>
          obtain ⟨pos, space', delim, inside⟩ := f
          obtain ⟨rfl, rfl⟩ : delim = .bracket ∧ cs = [] := by simpa [isTypePrefix] using hstarts
          exact ⟨.slice pos inside type, space', htree, rfl, hend⟩
        | _ => cases hstarts
      · exact h₁.fail.elim
    · split at h
      · rename_i id _
        obtain ⟨_, s₁, hskip, h₁⟩ := h.bind
        have hs₁ := hskip.skip_passes [.ident id] hs rfl
        obtain ⟨code', s₂, hpath, h₂⟩ := h₁.bind
        obtain ⟨rfl, rfl⟩ := h₂.pure
        obtain ⟨path, hs₂, rfl, hend⟩ := typePath_spells ha (hs₁.rest_eq hs) hpath
        exact ⟨.named id.pos id.name path, id.space, hs₁.trans hs₂, rfl, hend⟩
      · exact h.unexpected.elim

mutual

theorem typeWithin_spells (n : Nat) {s u : State} {code : List Token} (h : Returns (typeWithin n) s code u) :
    ∃ (type : TypeTree) (space : Text), s.Passes (type.tokens space) u ∧ code = type.code ∧
      (type.isGeneric = true ∨ Token.goOnPath u.stream.rest = false) := by
  match n with
  | 0 => exact h.throw.elim
  | n + 1 =>
    obtain ⟨_, s₁, hstop, h₁⟩ := h.bind
    obtain ⟨_, _, hrest, h₂⟩ := h₁.bind
    obtain ⟨rfl, rfl⟩ := hrest.rest
    obtain ⟨type, space, hs₂, hcode⟩ :=
      typeFrom_spells (fun _ _ _ _ h => typeArguments_spells n h) rfl h₂
    exact ⟨type, space, hstop.checkStop_passes.trans hs₂, hcode⟩

theorem typeArguments_spells (n : Nat) {pos : Option Position} {s u : State} {code : List Token}
    (h : Returns (typeArguments n pos) s code u) :
    ∃ args : TypeArgs, s.Passes args.tokens u ∧ code = args.code := by
  match n with
  | 0 => exact h.throw.elim
  | n + 1 =>
    obtain ⟨arg, s₁, htype, h₁⟩ := h.bind
    obtain ⟨type, space, hs₁, rfl, -⟩ := typeWithin_spells n htype
    obtain ⟨next, _, hpeek, h₂⟩ := h₁.bind
    obtain ⟨rfl, rfl⟩ := hpeek.peek
    split at h₂
    · exact h₂.fail.elim
    · rename_i tok hnext
      obtain ⟨ts, hrest⟩ := List.head?_eq_some_iff.mp hnext
      obtain ⟨_, s₂, hskip, h₃⟩ := h₂.bind
      have hs₂ := hs₁.trans (hskip.skip_passes [tok] hrest rfl)
      split at h₃
      · rename_i hgt
        obtain ⟨rfl, rfl⟩ := h₃.pure
        rw [Token.eq_punct hgt] at hs₂
        exact ⟨.last space type tok.space tok.pos, hs₂, rfl⟩
      · split at h₃
        · rename_i hcomma
          obtain ⟨code', s₃, hargs, h₄⟩ := h₃.bind
          obtain ⟨rfl, rfl⟩ := h₄.pure
          obtain ⟨args, hs₃, rfl⟩ := typeArguments_spells n hargs
          have hall := hs₂.trans hs₃
          rw [Token.eq_punct hcomma, List.append_assoc] at hall
          exact ⟨.more space type tok.space tok.pos args, hall, rfl⟩
        · exact h₃.unexpected.elim

end

end ParseM

/-! ## A type is taken -/

theorem TypeTree.tokens_glued (type : TypeTree) (after : List Token) :
    (type.tokens [] ++ after).head?.any Token.glued = true := by
  obtain ⟨t, ts, htokens, hspace⟩ := type.tokens_eq_cons []
  simp [htokens, Token.glued, hspace]

namespace ParseM
variable {arguments : Option Position → ParseM (List Token)} {s : State}

/-- After a segment of the path the rest of it is read. -/
theorem takes_segment (xs : List Token) {ts more code : List Token} {k : Nat} {pos : Option Position}
    {m w : Token} (hs : s.stream.rest = xs ++ ts) (hk : xs.length = k)
    (h : ∀ u, s.Passes xs u → Takes (typePath arguments ts) u code more) :
    Takes (do
      setLast pos
      skip k
      return m :: w :: (← typePath arguments ts)) s (m :: w :: code) (xs ++ more) := by
  refine Takes.next (.setLast pos) fun u hu => ?_
  refine Takes.bind (.skip xs (hu.rest_eq hs) hk) fun v hv => ?_
  exact (h v (hu.trans hv)).map (m :: w :: ·)

theorem typePath_dot (pos namePos : Option Position) (name : Text) (ts : List Token) :
    typePath arguments (.punct ⟨pos, [], '.'⟩ :: .ident ⟨namePos, [], name⟩ :: ts) = do
      setLast pos
      skip 2
      return .mark pos '.' :: .word namePos name :: (← typePath arguments ts) := by
  conv => lhs; unfold typePath
  rfl

theorem typePath_colons (pos pos' namePos : Option Position) (name : Text) (ts : List Token) :
    typePath arguments
      (.punct ⟨pos, [], ':'⟩ :: .punct ⟨pos', [], ':'⟩ :: .ident ⟨namePos, [], name⟩ :: ts) = do
      setLast pos
      skip 3
      return .mark pos '.' :: .word namePos name :: (← typePath arguments ts) := by
  conv => lhs; unfold typePath
  rfl

theorem typePath_arguments (pos : Option Position) (ts : List Token) :
    typePath arguments (.punct ⟨pos, [], '<'⟩ :: ts) = do
      setLast pos
      skip 1
      return [.enclose pos .bracket (← arguments pos)] := by
  conv => lhs; unfold typePath
  rfl

/-- The path ends where nothing would go on with it. -/
theorem takes_done {ts : List Token} (h : Token.goOnPath ts = false) : Takes (typePath arguments ts) s [] [] := by
  have hlast (pos : Option Position) : Takes (do setLast pos; return []) s ([] : List Token) [] :=
    Takes.next (.setLast pos) fun _ _ => .pure _
  cases ts with
  | nil => exact .pure _
  | cons t ts =>
    unfold typePath
    split
    · exact .pure _
    rename_i hglued
    obtain ⟨hcolon, hlt, hdot⟩ : t.isPunct ':' = false ∧ t.isPunct '<' = false ∧
        (t.isPunct '.' = true → ts.head?.any (fun u => u.isIdent && u.glued) = false) := by
      simp only [Bool.not_eq_true', Bool.not_eq_false] at hglued
      simpa [Token.goOnPath, hglued, and_assoc] using h
    rw [hcolon, hlt]
    simp only [Bool.false_eq_true, if_false]
    split
    · rename_i hisdot
      have hnone := hdot hisdot
      split
      · rename_i n ts'
        have hn : n.space.isEmpty = false := by simpa [Token.isIdent, Token.glued, Token.space] using hnone
        rw [hn]
        exact hlast _
      · exact hlast _
    · exact hlast _

/-- A star or empty brackets are taken before a type. -/
theorem takes_prefixed {tok : Token} {ts more code : List Token} (hs : s.stream.rest = tok :: ts)
    (hstarts : isTypePrefix tok = true) (hglued : ts.head?.any Token.glued = true)
    (h : ∀ u, s.Passes [tok] u → Takes (typeFrom arguments ts) u code more) :
    Takes (typeFrom arguments (tok :: ts)) s (typePrefix tok :: code) (tok :: more) := by
  unfold typeFrom
  rw [if_pos hstarts, if_pos hglued]
  exact Takes.bind (.skip [tok] hs rfl) fun u hu => (h u hu).map (typePrefix tok :: ·)

/-- An argument is taken, and the token that ends it. -/
theorem takes_argument (arg : List Token) {n : Nat} {pos : Option Position} {tok : Token}
    {xs ts more code : List Token} (hb : s.world.budget = none) (hs : s.stream.rest = xs ++ tok :: ts)
    (harg : ∀ u, s.Passes [] u → Takes (typeFrom (typeArguments n) (xs ++ tok :: ts)) u arg xs)
    (hmore : ∀ u, s.Passes (xs ++ [tok]) u → Takes
      (if tok.isPunct '>' then return arg
        else if tok.isPunct ',' then return arg ++ .mark tok.pos ',' :: (← typeArguments (n + 1) pos)
        else unexpected tok .inTypeArguments) u code more) :
    Takes (typeArguments (n + 2) pos) s code (xs ++ tok :: more) := by
  have hwithin : Takes (typeWithin (n + 1)) s arg xs := by
    refine Takes.next (.checkStop hb) fun u hu => Takes.look ?_
    rw [hu.rest_eq hs]
    exact harg u hu
  refine hwithin.bind fun u hu => Takes.peek ?_
  rw [hu.rest_eq hs]
  refine Takes.bind (.skip [tok] (hu.rest_eq hs) rfl) fun v hv => ?_
  exact hmore v (hu.trans hv)

end ParseM

mutual

/-- A type is taken before tokens that would not go on with it. -/
theorem TypeTree.takes (n : Nat) (space : Text) {s : State} {after : List Token} (hb : s.world.budget = none) :
    (type : TypeTree) → s.stream.rest = type.tokens space ++ after → 2 * (type.tokens space).length ≤ n + 2 →
      (type.isGeneric = true ∨ Token.goOnPath after = false) →
      Takes (typeFrom (typeArguments n) (type.tokens space ++ after)) s type.code (type.tokens space)
  | .star pos type, hs, hn, hend | .slice pos inside type, hs, hn, hend => by
    refine takes_prefixed hs (by simp [isTypePrefix]) (type.tokens_glued after) fun u hu => ?_
    refine type.takes n [] (hu.unlimited hb) (hu.rest_eq hs) ?_ hend
    simp only [TypeTree.tokens, List.length_cons] at hn
    omega
  | .named pos name path, hs, hn, hend => by
    refine Takes.bind (.skip [.ident ⟨pos, space, name⟩] hs rfl) fun u hu => ?_
    refine (path.takes n (hu.unlimited hb) (hu.rest_eq hs) ?_ hend).map (Token.word pos name :: ·)
    simp only [TypeTree.tokens, List.length_cons] at hn
    omega

theorem TypePath.takes (n : Nat) {s : State} {after : List Token} (hb : s.world.budget = none) :
    (path : TypePath) → s.stream.rest = path.tokens ++ after → 2 * path.tokens.length ≤ n →
      (path.isGeneric = true ∨ Token.goOnPath after = false) →
      Takes (typePath (typeArguments n) (path.tokens ++ after)) s path.code path.tokens
  | .done, _, _, hend => takes_done (hend.resolve_left (by simp [TypePath.isGeneric]))
  | .dot pos namePos name path, hs, hn, hend => by
    simp only [TypePath.tokens, List.length_cons] at hn
    refine typePath_dot pos namePos name _ ▸ takes_segment [_, _] hs rfl fun u hu => ?_
    exact path.takes n (hu.unlimited hb) (hu.rest_eq hs) (by omega) hend
  | .colons pos pos' namePos name path, hs, hn, hend => by
    simp only [TypePath.tokens, List.length_cons] at hn
    refine typePath_colons pos pos' namePos name _ ▸ takes_segment [_, _, _] hs rfl fun u hu => ?_
    exact path.takes n (hu.unlimited hb) (hu.rest_eq hs) (by omega) hend
  | .args pos args, hs, hn, hend => by
    simp only [TypePath.tokens, List.length_cons] at hn
    refine typePath_arguments pos _ ▸ Takes.next (.setLast pos) fun u hu => ?_
    have hs := hu.rest_eq hs
    have hb := hu.unlimited hb
    refine Takes.bind (.skip [_] hs rfl) fun v hv => ?_
    exact (args.takes n (hv.unlimited hb) (hv.rest_eq hs) (by omega)).map
      fun code => [Token.enclose pos .bracket code]

theorem TypeArgs.takes (n : Nat) {s : State} {after : List Token} (hb : s.world.budget = none)
    {pos : Option Position} :
    (args : TypeArgs) → s.stream.rest = args.tokens ++ after → 2 * args.tokens.length ≤ n + 1 →
      Takes (typeArguments n pos) s args.code args.tokens
  | .last before type space gt, hs, hn => by
    have hpos := type.length_tokens_pos before
    simp only [TypeArgs.tokens, List.length_append, List.length_singleton] at hn
    obtain ⟨k, rfl⟩ : ∃ k, n = k + 2 := ⟨n - 2, by omega⟩
    rw [TypeArgs.tokens, List.append_assoc] at hs
    refine takes_argument _ hb hs (fun u hu => ?_) fun u hu => .pure _
    exact type.takes k before (hu.unlimited hb) (hu.rest_eq hs) (by omega)
      (.inr (by simp [Token.goOnPath, Token.isPunct]))
  | .more before type space comma args, hs, hn => by
    have hpos := type.length_tokens_pos before
    simp only [TypeArgs.tokens, List.length_append, List.length_cons] at hn
    obtain ⟨k, rfl⟩ : ∃ k, n = k + 2 := ⟨n - 2, by omega⟩
    rw [TypeArgs.tokens, List.append_assoc] at hs
    refine takes_argument type.code hb hs (fun u hu => ?_) fun u hu => ?_
    · exact type.takes k before (hu.unlimited hb) (hu.rest_eq hs) (by omega)
        (.inr (by simp [Token.goOnPath, Token.isPunct]))
    · refine (args.takes (k + 1) (hu.unlimited hb) (hu.rest_eq (by simpa using hs)) (by omega)).map
        (type.code ++ .mark comma ',' :: ·)

end

namespace ParseM
variable {s u : State}

/-- The type at the next token. -/
theorem typeName_takes {type : TypeTree} {space : Text} {after : List Token} (hb : s.world.budget = none)
    (hs : s.stream.rest = type.tokens space ++ after)
    (hend : type.isGeneric = true ∨ Token.goOnPath after = false) :
    Takes typeName s type.code (type.tokens space) := by
  refine Takes.look (Takes.next (.checkStop hb) fun u hu => Takes.look ?_)
  rw [hu.rest_eq hs]
  refine type.takes _ space (hu.unlimited hb) (hu.rest_eq hs) ?_ hend
  rw [hs, List.length_append]
  omega

theorem typeName_spells {code : List Token} (h : Returns typeName s code u) :
    ∃ (type : TypeTree) (space : Text), s.Passes (type.tokens space) u ∧ code = type.code ∧
      (type.isGeneric = true ∨ Token.goOnPath u.stream.rest = false) := by
  obtain ⟨_, _, hrest, h⟩ := h.bind
  obtain ⟨rfl, rfl⟩ := hrest.rest
  exact typeWithin_spells _ h

/-- Types are read exactly. Every type before a token with white space, or at the end, is taken as a whole and
gives its code; and whenever a type is read, the tokens that were taken are a type, and the result is its code. -/
theorem typeName_exact (s : State) :
    (s.world.budget = none → ∀ (type : TypeTree) (space : Text) (after : List Token),
      s.stream.rest = type.tokens space ++ after → (∀ t ∈ after.head?, t.space ≠ []) →
      ∃ u, Returns typeName s type.code u ∧ s.Passes (type.tokens space) u ∧ u.stream.rest = after) ∧
    ∀ code u, Returns typeName s code u →
      ∃ (type : TypeTree) (space : Text), s.Passes (type.tokens space) u ∧ code = type.code := by
  refine ⟨fun hb type space after hs hafter => ?_, fun code u h => ?_⟩
  · have hend : Token.goOnPath after = false := by
      cases after with
      | nil => rfl
      | cons t ts => simp [Token.goOnPath, Token.glued, hafter t rfl]
    obtain ⟨u, hu, hpass⟩ := typeName_takes hb hs (.inr hend)
    exact ⟨u, hu, hpass, hpass.rest_eq hs⟩
  · obtain ⟨type, space, hpass, hcode, -⟩ := typeName_spells h
    exact ⟨type, space, hpass, hcode⟩

/-- The type `*[ ]shop::Cart< Item , map.Key<int> >`. -/
def nestedType : TypeTree :=
  .star none (.slice none (utf8 " ") (.named none (utf8 "shop") (.colons none none none (utf8 "Cart")
    (.args none (.more (utf8 " ") (.named none (utf8 "Item") .done) (utf8 " ") none
      (.last (utf8 " ") (.named none (utf8 "map") (.dot none none (utf8 "Key")
        (.args none (.last [] (.named none (utf8 "int") .done) [] none)))) (utf8 " ") none))))))

/-- The type before a word. -/
def nestedTypeState : State :=
  { world := {}, path := [], includers := [],
    stream := .ofTokens (nestedType.tokens [] ++ [.ident ⟨none, utf8 "\n", utf8 "Cart"⟩]) }

theorem typeName_exact_nested : ∃ u, Returns typeName nestedTypeState nestedType.code u ∧
    u.stream.rest = [.ident ⟨none, utf8 "\n", utf8 "Cart"⟩] ∧
    Token.sourceOf nestedType.code = utf8 "*[]shop.Cart[Item,map.Key[int]]" ∧
    ∃ (type : TypeTree) (space : Text),
      nestedTypeState.Passes (type.tokens space) u ∧ nestedType.code = type.code := by
  obtain ⟨htakes, hspells⟩ := typeName_exact nestedTypeState
  obtain ⟨u, hu, -, hafter⟩ := htakes rfl nestedType [] _ rfl (by decide)
  exact ⟨u, hu, hafter, by decide +kernel, hspells _ u hu⟩

end ParseM
end Atmark
