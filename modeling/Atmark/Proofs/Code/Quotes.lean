import Atmark.Code.Lower
import Atmark.Proofs.Directive.Grounded

/-! The quotes around attribute values. A value that is known before the view runs is written between two quotes,
those of the source if it does not hold them. One that holds both kinds is written between double quotes all the
same, and so it ends before its end (`Template.parse_quotesValues`). -/
namespace Atmark
open Node

namespace Code

/-- A quote that a value is put between is in it only if both quotes are. -/
theorem quoteValue_eq (value : Text) : ∃ q ∈ [0x22, 0x27], quoteValue value = q :: (value ++ [q]) ∧
    (q ∈ value ↔ 0x22 ∈ value ∧ 0x27 ∈ value) := by
  unfold quoteValue
  split
  · rename_i h
    simp only [Bool.and_eq_true, Bool.not_eq_true', List.contains_eq_mem, decide_eq_true_eq,
      decide_eq_false_iff_not] at h
    exact ⟨0x27, by simp, rfl, by simp [h]⟩
  · rename_i h
    simp only [Bool.and_eq_true, Bool.not_eq_true', List.contains_eq_mem, decide_eq_true_eq,
      decide_eq_false_iff_not, not_and, not_not] at h
    exact ⟨0x22, by simp, rfl, fun hq => ⟨hq, h hq⟩, fun hq => hq.1⟩

end Code

/-- The quote at which a value starts is a double or a single one. -/
theorem Token.openingQuote?_mem {t : Token} {q : UInt8} (h : t.openingQuote? = some q) : q ∈ [0x22, 0x27] := by
  cases t with
  | ident | group => cases h
  | literal l =>
    simp only [openingQuote?] at h
    split at h
    · cases h
    · simpa using (Option.filter_eq_some_iff.mp h).2
  | punct p =>
    simp only [openingQuote?] at h
    split at h
    · cases h
      simp
    · cases h

namespace Node.ReadValue
variable {S : Text → Prop} {pos : Option Position} {v : StaticValue} {expr : List Node} {value : Text}

/-- A value that is no expression is spelled in the source. -/
theorem exists_spelled (h : ReadValue S pos v expr) (hstatic : (AttrValue.mk pos v expr).static? = some value) :
    ∃ tok ts, Token.ReadFrom S (tok :: ts) ∧ tok.pos = pos ∧ tok.valueText? ts = some value ∧
      v.quote = tok.openingQuote? ∧ v.content = value ∧
      (v.quote.isSome = true → v.run = [] ∧ v.literal = none ∧ v.text = some value) := by
  cases h with
  | number hread hkind =>
    cases hstatic
    exact ⟨_, _, hread, rfl, rfl, by simp [Token.openingQuote?, hkind], rfl, by simp⟩
  | quoted hread hkind =>
    cases hstatic
    exact ⟨_, _, hread, rfl, rfl, by simp [Token.openingQuote?, hkind], rfl, fun _ => ⟨rfl, rfl, rfl⟩⟩
  | apostrophes hread hp hus =>
    cases hstatic
    refine ⟨_, _, hread, rfl, ?_, by simp [Token.openingQuote?, hp], rfl, fun _ => ⟨rfl, rfl, rfl⟩⟩
    simp [Token.valueText?, Token.startsRun, hp, hus, StaticValue.content]
  | @run t ts hread hstarts =>
    cases hstatic
    refine ⟨_, _, hread, rfl, by simp [Token.valueText?, hstarts, StaticValue.content], ?_, rfl, by simp⟩
    cases t with
    | punct p =>
      have hp : p.char ≠ '\x27' := by
        intro hp
        rw [Token.startsRun, hp] at hstarts
        exact absurd hstarts (by decide)
      simp [Token.openingQuote?, hp]
    | literal | group => cases hstarts
    | ident => rfl
  | expression _ _ hne =>
    rw [AttrValue.static?, if_pos (by simpa using hne)] at hstatic
    cases hstatic

/-- The quotes a value is written between are those of the source, if it does not hold them. -/
theorem exists_written (h : ReadValue S pos v expr) (hstatic : (AttrValue.mk pos v expr).static? = some value) :
    ∃ q ∈ [0x22, 0x27], Code.staticText v = q :: (value ++ [q]) ∧ (q ∈ value ↔ 0x22 ∈ value ∧ 0x27 ∈ value) ∧
      ∃ tok ts, Token.ReadFrom S (tok :: ts) ∧ tok.pos = pos ∧ tok.valueText? ts = some value ∧
        ∀ q', tok.openingQuote? = some q' → q' ∉ value → q = q' := by
  obtain ⟨tok, ts, hread, hpos, hvalue, hquote, hcontent, hparts⟩ := h.exists_spelled hstatic
  have hsource {q : UInt8} (hq : v.quote = some q) :
      Code.staticText v = if value.contains q then Code.quoteValue value else q :: (value ++ [q]) := by
    obtain ⟨hrun, hliteral, htext⟩ := hparts (by rw [hq]; rfl)
    simp [Code.staticText, hrun, hliteral, htext, hq]
  by_cases hfree : ∃ q, v.quote = some q ∧ q ∉ value
  · obtain ⟨q, hq, hnot⟩ := hfree
    have hmem : q ∈ [0x22, 0x27] := tok.openingQuote?_mem (hquote ▸ hq)
    refine ⟨q, hmem, ?_, ?_, tok, ts, hread, hpos, hvalue, ?_⟩
    · rw [hsource hq, if_neg (by simpa using hnot)]
    · refine ⟨fun h => (hnot h).elim, fun ⟨hdouble, hsingle⟩ => ?_⟩
      rcases List.mem_pair.mp hmem with rfl | rfl
      · exact hdouble
      · exact hsingle
    · intro q' hq' _
      rw [← hquote, hq] at hq'
      exact Option.some.inj hq'
  · have hheld : ∀ q, v.quote = some q → q ∈ value := by simpa using hfree
    have hchosen : Code.staticText v = Code.quoteValue value := by
      cases hq : v.quote with
      | some q => rw [hsource hq, if_pos (by simpa using hheld q hq)]
      | none => simp [Code.staticText, hq, hcontent]
    obtain ⟨q, hmem, htext, hiff⟩ := Code.quoteValue_eq value
    refine ⟨q, hmem, by rw [hchosen, htext], hiff, tok, ts, hread, hpos, hvalue, ?_⟩
    exact fun q' hq' hnot => (hnot (hheld q' (hquote.trans hq'))).elim

end Node.ReadValue

/-- What is written for a value that is no expression. -/
theorem Code.nodePieces_static (buf : Text) {pos : Option Position} {v : StaticValue} {expr : List Node} {value : Text}
    (hstatic : (AttrValue.mk pos v expr).static? = some value) :
    nodePieces buf (.attrValue pos v expr) = [writeText buf (staticText v) pos] := by
  unfold AttrValue.static? at hstatic
  rw [nodePieces]
  split at hstatic
  · cases hstatic
  · rename_i hexpr
    rw [if_neg hexpr]

/-- Wherever an attribute stands whose value is known before the view runs, the value is written between two quotes
of one kind. They are those of the source if the value does not hold them. Only a value that holds both kinds holds
those it is written between. -/
theorem Template.parse_quotesValues {settings : Settings} {path src : Text} {w w' : World} {t : Template}
    {S : Text → Prop} (hsrc : S src)
    (hfiles : ∀ files at' data, settings.files = some files → files.read at' = .ok data → S data)
    (hw : w.Grounded S) (h : parse .standard settings path src w = .ok t w') {l : List Node}
    (hl : Within l t.nodes) {pos : Option Position} {v : StaticValue} {expr : List Node}
    (hv : .attrValue pos v expr ∈ l) {value : Text} (hstatic : (AttrValue.mk pos v expr).static? = some value)
    (buf : Text) :
    ∃ q ∈ [0x22, 0x27],
      Code.nodePieces buf (.attrValue pos v expr) = [Code.writeText buf (q :: (value ++ [q])) pos] ∧
      (q ∈ value ↔ 0x22 ∈ value ∧ 0x27 ∈ value) ∧
      ∃ tok ts, Token.ReadFrom S (tok :: ts) ∧ tok.pos = pos ∧ tok.valueText? ts = some value ∧
        ∀ q', tok.openingQuote? = some q' → q' ∉ value → q = q' := by
  have hparse := Registry.parseSource_grounded (Registry.standard_grounded S) hfiles (includeBound settings) [] path
    src w hsrc hw
  rw [parse_returns h] at hparse
  have hread : ReadValue S pos v expr := ((hparse.2.1 l hl).1 _ hv).parts
  rw [Code.nodePieces_static buf hstatic]
  obtain ⟨q, hmem, htext, hspelled⟩ := hread.exists_written hstatic
  exact ⟨q, hmem, by rw [htext], hspelled⟩

/-- The value of an attribute that is known before the view runs, and which one. -/
def Node.isValueOf (value : Text) : Node → Bool
  | .attrValue pos v expr => (AttrValue.mk pos v expr).static? = some value
  | _ => false

/-- A raw string that holds a double and a single quote is written between double ones. -/
theorem Template.parse_quotesValues_both :
    ∃ t w' pos v expr, Template.parse .standard { markdown := .ok } (utf8 "a") (utf8 "<p a=`x\"y'z`></p>") {} =
        .ok t w' ∧ .attrValue pos v expr ∈ t.nodes ∧
      ∃ q, Code.nodePieces (utf8 "html") (.attrValue pos v expr) =
          [Code.writeText (utf8 "html") (q :: (utf8 "x\"y'z" ++ [q])) pos] ∧ q ∈ utf8 "x\"y'z" := by
  have hok : WorldM.returned (fun t => t.nodes.any (Node.isValueOf (utf8 "x\"y'z")))
      (Template.parse .standard { markdown := .ok } (utf8 "a") (utf8 "<p a=`x\"y'z`></p>") {}) = true := by
    rw [Registry.standard_eq]
    decide +kernel
  obtain ⟨t, w', h, hvalue⟩ := WorldM.exists_of_returned hok
  obtain ⟨n, hn, hvalue⟩ := List.any_eq_true.mp hvalue
  unfold Node.isValueOf at hvalue
  split at hvalue
  · rename_i pos v expr
    obtain ⟨q, -, hwritten, hheld, -⟩ := parse_quotesValues (S := anySource) trivial (fun _ _ _ _ _ => trivial)
      (by simp [World.Grounded]) h .self hn (of_decide_eq_true hvalue) (utf8 "html")
    exact ⟨t, w', pos, v, expr, h, hn, q, hwritten, hheld.mpr (by decide)⟩
  · cases hvalue

end Atmark
