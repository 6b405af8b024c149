import Atmark.Proofs.Code.Events
import Atmark.Proofs.Directive.Grounded

/-! Nothing that is taken for granted is missing. A compilation may look at the first token of a tag name and cut
the quotes off a literal without a check, because the nodes of a parsed template are grounded; so lowering with those
checks is lowering without them (`Code.lower?_eq`), also once the external contents are read. -/
namespace Atmark
open Node ParseM

namespace Code

/-! ## Lowering with checks -/

/-- What is written for a static value, if the literal in it has its quotes. -/
def staticText? (v : StaticValue) : Option Text := do
  if let some l := v.literal then
    let _ ← l.content?
  return staticText v

mutual

/-- The code of a node that is not a text, if its tag name has a first token and its literal has quotes. -/
def nodePieces? (buf : Text) : Node → Option (List Piece)
  | .group f ns => do return [⟨[.group f (join (← piecesFrom? buf [] none ns))], false⟩]
  | .tagStart name ts | .tagVoid name ts => do
    let first ← ts.head?
    return [writeText buf (utf8 "<" ++ name) first.pos]
  | .attrValue pos v e =>
    if v.run.isEmpty && !e.isEmpty then do
      let expr := join (← piecesFrom? buf [] none e)
      return [writeText buf [0x22] pos, writeValue buf expr pos, writeText buf [0x22] pos]
    else do return [writeText buf (← staticText? v) pos]
  | .write pos e => do return [writeValue buf (join (← piecesFrom? buf [] none e)) pos]
  | .closure type f ns => do return [closureCode buf type f (join (← piecesFrom? buf [] none ns))]
  | .define pos name ns => do return [defineCall buf pos name (join (← piecesFrom? buf [] none ns))]
  | n => some (nodePieces buf n)

/-- The code of nodes after a pending text at a position, if nothing in them is missing. -/
def piecesFrom? (buf : Text) (pending : Text) (pos : Option Position) : List Node → Option (List Piece)
  | [] => some (flush buf pending pos)
  | n :: ns => match n with
    | .text p t => piecesFrom? buf (pending ++ t) (if pending.isEmpty then p else pos) ns
    | n => do return flush buf pending pos ++ (← nodePieces? buf n) ++ (← piecesFrom? buf [] none ns)

end

/-- The code that writes the nodes to the buffer `buf`, if nothing in them is missing. -/
def lower? (buf : Text) (ns : List Node) : Option (List Token) := (piecesFrom? buf [] none ns).map join

variable {S : Text → Prop}

theorem staticText?_eq {pos : Option Position} {v : StaticValue} {expr : List Node} (h : ReadValue S pos v expr) :
    staticText? v = some (staticText v) := by
  unfold staticText?
  cases h with
  | number hread =>
    have hquoted := (hread.grounded (.head _)).quoted _ rfl
    simp [Literal.content?_eq hquoted]
  | _ => rfl

mutual

theorem nodePieces?_eq (buf : Text) (n : Node) (hn : n.Grounded S) (hl : ∀ l ∈ n.lists, AllGrounded S l) :
    nodePieces? buf n = some (nodePieces buf n) := by
  match n with
  | .group f ns | .write pos ns | .closure type f ns | .define pos name ns =>
    rw [nodePieces?, piecesFrom?_eq buf [] none ns (allGrounded_iff.mp (hl ns (by simp [lists]))).1, nodePieces]
    rfl
  | .tagStart name ts | .tagVoid name ts =>
    obtain ⟨t, us, hts⟩ := List.exists_cons_of_ne_nil (hn.parts : ts ≠ [])
    rw [nodePieces?, nodePieces, hts]
    rfl
  | .attrValue pos v e =>
    have he := (allGrounded_iff.mp (hl e (by simp [lists]))).1
    rw [nodePieces?, nodePieces, piecesFrom?_eq buf [] none e he, staticText?_eq hn.parts]
    split <;> rfl
  | .ident _ | .literal _ | .punct _ | .tagEnd .. | .closeStart .. | .closeSelf .. | .closeVoid .. | .attrName ..
  | .attrEquals _ | .text .. | .external .. => rw [nodePieces?] <;> simp

theorem piecesFrom?_eq (buf pending : Text) (pos : Option Position) (ns : List Node)
    (h : ∀ n ∈ ns, n.Grounded S ∧ ∀ l ∈ n.lists, AllGrounded S l) :
    piecesFrom? buf pending pos ns = some (piecesFrom buf pending pos ns) := by
  match ns with
  | [] => rw [piecesFrom?, piecesFrom]
  | n :: ns =>
    have hns (pending : Text) (pos : Option Position) :=
      piecesFrom?_eq buf pending pos ns fun m hm => h m (.tail _ hm)
    obtain ⟨hn, hl⟩ := h n (.head _)
    unfold piecesFrom?
    split
    · rw [hns, piecesFrom]
    · rename_i hnot
      have htext : n.isText = false := by
        cases n with
        | text => exact (hnot _ _ rfl).elim
        | _ => rfl
      rw [nodePieces?_eq buf n hn hl, hns, piecesFrom_cons buf pending pos ns htext]
      rfl

end

/-- With everything there, the checks change nothing. -/
theorem lower?_eq (buf : Text) {ns : List Node} (h : AllGrounded S ns) : lower? buf ns = some (lower buf ns) := by
  rw [lower?, piecesFrom?_eq buf [] none ns (allGrounded_iff.mp h).1]
  rfl

/-! ## Reading external contents -/

mutual

/-- A node is replaced by one of its kind, or by the text of a file at its place. -/
theorem resolveNode_grounded {settings : Settings} (n : Node) {m : Node} {w w' : World}
    (h : resolveNode settings n w = .ok m w') (hn : n.Grounded S) (hl : ∀ l ∈ n.lists, AllGrounded S l) :
    (m.Grounded S ∧ ∀ l ∈ m.lists, AllGrounded S l) ∧ m.isValue = n.isValue ∧ m.isEquals = n.isEquals := by
  match n with
  | .external pos path includer markdown =>
    obtain ⟨t, w₁, -, hret⟩ := WorldM.bind_eq_ok h
    cases hret
    exact ⟨⟨⟨hn.pos, trivial⟩, by simp [lists]⟩, rfl, rfl⟩
  | .group f ns | .write pos ns | .closure type f ns | .define pos name ns =>
    obtain ⟨ms, w₁, hres, hret⟩ := WorldM.bind_eq_ok h
    cases hret
    obtain ⟨hns, hfollow⟩ := allGrounded_iff.mp (hl ns (by simp [lists]))
    obtain ⟨hms, hfollow', -⟩ := resolveEach_grounded ns hres hns
    have hms : AllGrounded S ms := allGrounded_iff.mpr ⟨hms, by rw [hfollow', hfollow]⟩
    exact ⟨⟨⟨hn.pos, trivial⟩, by simpa [lists] using hms⟩, rfl, rfl⟩
  | .attrValue pos v e =>
    obtain ⟨e', w₁, hres, hret⟩ := WorldM.bind_eq_ok h
    cases hret
    obtain ⟨he, hfollow⟩ := allGrounded_iff.mp (hl e (by simp [lists]))
    obtain ⟨he', hfollow', hempty⟩ := resolveEach_grounded e hres he
    have he' : AllGrounded S e' := allGrounded_iff.mpr ⟨he', by rw [hfollow', hfollow]⟩
    exact ⟨⟨⟨hn.pos, hn.parts.congr hempty⟩, by simpa [lists] using he'⟩, rfl, rfl⟩
  | .ident _ | .literal _ | .punct _ | .tagStart .. | .tagVoid .. | .tagEnd .. | .closeStart .. | .closeSelf ..
  | .closeVoid .. | .attrName .. | .attrEquals _ | .text .. =>
    cases h
    exact ⟨⟨hn, hl⟩, rfl, rfl⟩

theorem resolveEach_grounded {settings : Settings} (ns : List Node) {ms : List Node} {w w' : World}
    (h : resolve settings ns w = .ok ms w') (hns : ∀ n ∈ ns, n.Grounded S ∧ ∀ l ∈ n.lists, AllGrounded S l) :
    (∀ m ∈ ms, m.Grounded S ∧ ∀ l ∈ m.lists, AllGrounded S l) ∧
      (∀ after, valuesFollow after ms = valuesFollow after ns) ∧ (ms = [] ↔ ns = []) := by
  match ns with
  | [] =>
    cases h
    simp
  | n :: ns =>
    obtain ⟨m, w₁, hnode, hrest⟩ := WorldM.bind_eq_ok h
    obtain ⟨ms', w₂, hres, hret⟩ := WorldM.bind_eq_ok hrest
    cases hret
    obtain ⟨hn, hl⟩ := hns n (.head _)
    obtain ⟨hm, hvalue, hequals⟩ := resolveNode_grounded n hnode hn hl
    obtain ⟨hms, hfollow, -⟩ := resolveEach_grounded ns hres fun n hn => hns n (.tail _ hn)
    refine ⟨List.forall_mem_cons.mpr ⟨hm, hms⟩, fun after => ?_, by simp⟩
    rw [valuesFollow, valuesFollow, hvalue, hequals, hfollow]

end

/-- What is grounded stays so when the external contents in it are read. -/
theorem resolve_grounded {settings : Settings} {ns ms : List Node} {w w' : World}
    (h : resolve settings ns w = .ok ms w') (hns : AllGrounded S ns) : AllGrounded S ms := by
  obtain ⟨hns, hfollow⟩ := allGrounded_iff.mp hns
  obtain ⟨hms, hfollow', -⟩ := resolveEach_grounded ns h hns
  exact allGrounded_iff.mpr ⟨hms, by rw [hfollow', hfollow]⟩

/-! ## Joining -/

/-- The tokens are those of the calls and of the others, and no call stands for several yet. -/
theorem flatMap_items (buf : Text) (ts : List Token) :
    (items buf ts).flatMap Item.tokens = ts ∧ ∀ c, .call c ∈ items buf ts → c.isJoined = false := by
  induction ts using callInduction buf with
  | nil => exact ⟨rfl, by simp [items, itemsFrom]⟩
  | call c ts hc hj ih =>
    rw [items_call hc hj]
    refine ⟨by rw [List.flatMap_cons, ih.1]; rfl, fun d hd => ?_⟩
    rcases List.mem_cons.mp hd with hd | hd
    · cases hd
      exact hj
    · exact ih.2 d hd
  | token t ts ht ih =>
    rw [items_token ht]
    refine ⟨by rw [List.flatMap_cons, ih.1]; rfl, fun d hd => ih.2 d ?_⟩
    simpa using hd

/-- Where a run of calls begins, and at each call in it, the fourth token is the group of the call. -/
theorem fourth_of_items {buf : Text} {ts : List Token} {before after : List Item} {c : TextCall}
    (h : items buf ts = before ++ .call c :: after) :
    ts[(before.flatMap Item.tokens).length + 3]? = some (.group c.frame [.literal c.literal]) := by
  obtain ⟨hts, hjoined⟩ := flatMap_items buf ts
  have hc : c.isJoined = false := hjoined c (by simp [h])
  rw [h, List.flatMap_append, List.flatMap_cons] at hts
  rw [← hts, List.getElem?_append_right (by omega)]
  simp [Item.tokens, TextCall.tokens, hc]

end Code

/-! ## Compilations -/

/-- Nothing that a compilation takes for granted is missing, whatever the source, the files and the environment, and
at whichever check the compilation is stopped: of the tokens, at each check, of the parsed nodes and when they are
lowered, of the cache that is left, and where calls are joined. -/
theorem Template.parse_grounded (settings : Settings) (path src : Text) {w : World} (hw : w.Grounded anySource) :
    (∀ tokens trailing, Token.lex src = .ok (tokens, trailing) →
      (∀ t, Token.Inside t tokens → t.Grounded ∧ ∀ l, t = .literal l → l.content? = some l.content) ∧
      ∀ n includers, EndsGrounded anySource (fun _ => True)
        (Registry.standard.readTokens settings (Registry.standard.embedIn settings n includers path)
          (Registry.standard.turns w tokens) tokens trailing
          { world := w, path, includers, stream := .ofTokens tokens })) ∧
    (∀ t w', parse .standard settings path src w = .ok t w' →
      w'.Grounded anySource ∧ [] ∉ t.declared.injects ∧
      (∀ l, Within l t.nodes → (∀ n ∈ l, n.Grounded anySource) ∧
        ∀ before pos v expr after, l = before ++ .attrValue pos v expr :: after →
          ∃ p front, before = front ++ [.attrEquals (some p)]) ∧
      ∀ nodes w'', Code.resolve settings t.nodes w' = .ok nodes w'' →
        ∀ buf, Code.lower? buf nodes = some (Code.lower buf nodes)) ∧
    (∀ e w', parse .standard settings path src w = .error e w' → w'.Grounded anySource) ∧
    ∀ buf ts before c after, Code.items buf ts = before ++ .call c :: after →
      ts[(before.flatMap Code.Item.tokens).length + 3]? = some (.group c.frame [.literal c.literal]) := by
  have hstandard := Registry.standard_grounded anySource
  have hfiles : ∀ files at' data, settings.files = some files → files.read at' = .ok data → anySource data :=
    fun _ _ _ _ _ => trivial
  have hparse := Registry.parseSource_grounded hstandard hfiles
  have hparsed := hparse (includeBound settings) [] path src w trivial hw
  refine ⟨fun tokens trailing hlex => ⟨fun t ht => ?_, fun n includers => ?_⟩, fun t w' h => ?_, fun e w' h => ?_, ?_⟩
  · have hgrounded := Token.lex_grounded hlex t ht
    exact ⟨hgrounded, fun l hl => Literal.content?_eq (hgrounded.quoted l hl)⟩
  · exact Registry.readTokens_grounded hstandard hfiles
      (fun file data hdata => Registry.embedIn_grounds (hparse n) includers path file hdata) _ trivial hlex path
      includers hw
  · rw [parse_returns h] at hparsed
    obtain ⟨hcache, hnodes, hinjects⟩ := hparsed
    refine ⟨hcache, hinjects, fun l hl => ⟨(hnodes l hl).1, ?_⟩, fun nodes w'' hnodes' buf => ?_⟩
    · rintro before pos v expr after rfl
      exact exists_equals (hnodes _ hl).2 fun _ => rfl
    · exact Code.lower?_eq buf (Code.resolve_grounded hnodes' hnodes)
  · unfold parse at h
    simp only [Bind.bind, EStateM.bind] at h
    split at h
    · cases h
    · rename_i hres
      cases h
      rw [hres] at hparsed
      exact hparsed
  · exact fun buf ts before c after h => Code.fourth_of_items h

/-- Files with one template. -/
def oneTemplate : Settings := { files := some ⟨[(utf8 "p", utf8 "<b>k</b>")], false⟩, markdown := .ok }

/-- A page with a statement, attributes, a section, a template that is kept in the cache and a file that is read after
parsing. -/
def mixedPage : Text :=
  utf8 "@inject n := 1\n<p a=\"x\" hidden>@n</p>@section s \x7bt\x7d" ++
    utf8 "@rusthtmlfile \"p\" @htmlfile_nocache \"p\""

theorem Template.parse_grounded_page : ∃ t w' nodes w'',
    Template.parse .standard oneTemplate (utf8 "a") mixedPage { cache := some {} } = .ok t w' ∧
      Code.resolve oneTemplate t.nodes w' = .ok nodes w'' ∧ t.declared.injects ≠ [] ∧ [] ∉ t.declared.injects ∧
      Code.lower? (utf8 "html") nodes = some (Code.lower (utf8 "html") nodes) := by
  have hok : WorldM.returned (fun found => !found.1.declared.injects.isEmpty)
      ((do
        let t ← Template.parse .standard oneTemplate (utf8 "a") mixedPage
        let nodes ← Code.resolve oneTemplate t.nodes
        return (t, nodes) : WorldM (Template × List Node)) { cache := some {} }) = true := by
    rw [Registry.standard_eq]
    decide +kernel
  obtain ⟨found, w, hfound, hinjects⟩ := WorldM.exists_of_returned hok
  obtain ⟨t, w', ht, hrest⟩ := WorldM.bind_eq_ok hfound
  obtain ⟨nodes, w'', hnodes, hret⟩ := WorldM.bind_eq_ok hrest
  cases hret
  have hempty : World.Grounded anySource { cache := some {} } := by
    rintro c ⟨⟩
    simp
  obtain ⟨-, hstatements, -, hlower⟩ := (parse_grounded oneTemplate (utf8 "a") mixedPage hempty).2.1 t w' ht
  exact ⟨t, w', nodes, _, ht, hnodes, by simpa using hinjects, hstatements, hlower nodes _ hnodes _⟩

end Atmark
