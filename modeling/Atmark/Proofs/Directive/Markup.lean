import Atmark.Proofs.Directive.Nesting
import Atmark.Proofs.Parse.Hooks

/-! Static markup through the whole compilation: a source without markers, without values and without
white space before `>` becomes one call that writes it back byte for byte. The elements of a source are
those of its bare parse, where no hook takes them out, so that is where an environment element shows. -/
namespace Atmark
open Node

/-- The source without one byte order mark at its beginning. -/
def Text.withoutMark (src : Text) : Text := if [0xEF, 0xBB, 0xBF] <+: src then src.drop 3 else src

theorem Node.isMarkup_of_faithful {n : Node} (hn : (n.isText || n.isTagPart) = true)
    (hf : n.Faithful) : n.isMarkup = true := by
  cases n with
  | attrValue => exact hf.elim
  | tagStart | tagVoid | tagEnd | closeStart | closeSelf | closeVoid => rfl
  | attrName | attrEquals | text => rfl
  | _ => cases hn

/-- Nodes parsed from static markup without hooks are the parts of tags and texts, and they spell the
source if all of them write what they were read from. -/
theorem Registry.parseSource_spells {r : Registry} {settings : Settings} {n : Nat}
    {includers : List Text} {path src : Text} {w w' : World} {ns : List Node} {d : Declarations}
    (hr : r.tagHooks = []) (hr' : r.elementHooks = [])
    (hstatic : ∀ tokens trailing, Token.lex src = .ok (tokens, trailing) → Token.Static tokens)
    (h : r.parseSource settings (n + 1) includers path src w = .ok (ns, d) w') :
    (∀ n ∈ ns, (n.isText || n.isTagPart) = true) ∧
      ((∀ n ∈ ns, n.Faithful) → ns.flatMap Node.markup = Text.withoutMark src) := by
  obtain ⟨tokens, trailing, budget, s, hl, hloop, rfl, -⟩ := parseSource_returns h
  have hstart : State.Static
      { world := { w with budget }, path, includers, stream := .ofTokens tokens } :=
    ⟨rfl, rfl, rfl, hstatic tokens trailing hl⟩
  obtain ⟨hreads, hend⟩ := loop_reading hr hr' settings _ _ _ none s hstart hloop
  obtain ⟨x, hx, hspell⟩ := hreads.wrote
  obtain ⟨hlast, -⟩ := State.pushText_wrote (hreads.toStatic hstart).trimLine
    (Stream.ofTokens tokens).stop trailing
  have hall := hx.trans hlast
  refine ⟨fun n hn => ?_, fun hf => ?_⟩
  · rcases hall.added n (List.mem_reverse.mp hn) with hn | hn
    · cases hn
    · exact hn
  · have hbefore := hlast.before (fun _ => faithful_of_isText) fun n hn => hf n (List.mem_reverse.mpr hn)
    have hsrc : x = Token.sourceWithSpace tokens := by
      simpa [ClosingTag.text, hend rfl, Token.sourceWithSpace, Stream.ofTokens] using hspell hbefore
    rw [hall.text, hsrc, Token.lex_unmarked hl, Lexeme.unmarked_eq]
    rfl

namespace Template

theorem parse_of_parseSource {r : Registry} {settings : Settings} {path src : Text} {w w' : World}
    {ns : List Node} {d : Declarations}
    (h : r.parseSource settings (includeBound settings) [] path src w = .ok (ns, d) w') :
    Template.parse r settings path src w = .ok ⟨path, d, ns⟩ w' := by
  simp only [Template.parse, bind, EStateM.bind, h]
  rfl

/-- Static markup is written back byte for byte, in one call. -/
theorem parse_static_text {settings : Settings} {path src : Text} {w w' : World} {t : Template}
    (hat : 0x40 ∉ src) (hgt : ∀ b ∈ [0x20, 0x09, 0x0A, 0x0D], ¬[b, 0x3E] <:+: src)
    (h : Template.parse .standard settings path src w = .ok t w')
    (helement : ∀ t₀ w₀, Template.parse Registry.standard.bare settings path src w = .ok t₀ w₀ →
      ∀ name ts, .tagStart name ts ∈ t₀.nodes → Text.sameFold name (utf8 "environment") = false)
    (hvalue : ∀ pos v e, .attrValue pos v e ∉ t.nodes)
    (hname : ∀ pos name quoted, .attrName pos [] name quoted ∉ t.nodes) :
    ∃ code, Code.ofNodes settings t.nodes w' = .ok code w' ∧
      if Text.withoutMark src = [] then Code.coalesce settings.buffer code = []
      else Code.IsTextCall settings.buffer (Text.withoutMark src)
        (Code.coalesce settings.buffer code) := by
  have hspace : ∀ b, Shape.isSpace b = true → ¬[b, 0x3E] <:+: src := by
    intro b hb
    refine hgt b ?_
    simpa [Shape.isSpace, Text.isIndent, Text.isLineBreak, or_assoc] using hb
  have hstatic : ∀ tokens trailing, Token.lex src = .ok (tokens, trailing) → Token.Static tokens :=
    fun _ _ hl => Token.static_of_lex hat hspace hl
  -- Without environment elements both registries give the same nodes, and the bare one has no hooks.
  obtain ⟨ns, d, w₀, hbare, hsame⟩ :=
    Registry.parseSource_bare (r := .standard) rfl hstatic (parse_returns h)
  have hnodes : t.nodes = ns := by
    refine hsame fun n hn => ?_
    cases n with
    | tagStart name ts =>
      simpa [Registry.hooks, Registry.standard, Environment.hook] using
        helement _ w₀ (parse_of_parseSource hbare) name ts hn
    | _ => rfl
  obtain ⟨hkind, hspell⟩ :=
    Registry.parseSource_spells (r := Registry.standard.bare) rfl rfl hstatic hbare
  rw [← hnodes] at hkind hspell
  have hfaithful : ∀ n ∈ t.nodes, n.Faithful := by
    intro n hn
    cases n with
    | attrName pos space name quoted =>
      rintro rfl
      exact hname pos name quoted hn
    | attrValue pos v e => exact hvalue pos v e hn
    | _ => trivial
  have hmarkup : ∀ n ∈ t.nodes, n.isMarkup = true :=
    fun n hn => isMarkup_of_faithful (hkind n hn) (hfaithful n hn)
  refine ⟨Code.lower settings.buffer t.nodes, ?_, ?_⟩
  · simp only [Code.ofNodes, bind, EStateM.bind, Code.resolve_markup settings hmarkup]
    rfl
  · rw [← hspell hfaithful]
    rcases Code.coalesce_markup settings.buffer hmarkup with ⟨hempty, hcode⟩ | ⟨hne, hcode⟩
    · rw [if_pos hempty]
      exact hcode
    · rw [if_neg hne]
      exact hcode

/-- The node has no value and white space before its name, and begins no environment element. -/
def isPlain : Node → Bool
  | .attrValue .. => false
  | .attrName _ space _ _ => !space.isEmpty
  | .tagStart name _ => !Text.sameFold name (utf8 "environment")
  | _ => true

/-- A document type, names of attributes with and without quotes, nested groups, a stray character,
elements that are void, closed in themselves and closed in other letters, a comment that holds a tag, and
raw text. -/
def staticPage : Text :=
  utf8 "<!DOCTYPE html>\n<ul hidden \"q\">a (b [ c]) 1 < 2 <li>x<br/></LI><i/>" ++
    utf8 "<!-- </ul> --><script>\x7ba<b\x7d</script></ul>\n"

theorem parse_staticPage : ∃ t w' code,
    Template.parse .standard { markdown := .ok } (utf8 "a") ([0xEF, 0xBB, 0xBF] ++ staticPage) {} =
      .ok t w' ∧
    Code.ofNodes { markdown := .ok } t.nodes w' = .ok code w' ∧
    Code.IsTextCall (utf8 "html") staticPage (Code.coalesce (utf8 "html") code) := by
  have hok : WorldM.returned (·.nodes.all isPlain) (Template.parse .standard { markdown := .ok }
      (utf8 "a") ([0xEF, 0xBB, 0xBF] ++ staticPage) {}) = true := by
    rw [Registry.standard_eq]
    decide +kernel
  have hbare : WorldM.returned (·.nodes.all isPlain) (Template.parse Registry.standard.bare
      { markdown := .ok } (utf8 "a") ([0xEF, 0xBB, 0xBF] ++ staticPage) {}) = true := by
    rw [Registry.standard_eq]
    decide +kernel
  obtain ⟨t, w', h, hplain⟩ := WorldM.exists_of_returned hok
  obtain ⟨t₀, w₀, h₀, hplain₀⟩ := WorldM.exists_of_returned hbare
  rw [List.all_eq_true] at hplain hplain₀
  obtain ⟨code, hcode, hcall⟩ := parse_static_text (by decide +kernel) (by decide +kernel) h
    (fun t₁ w₁ h₁ name ts hmem => by
      rw [h₀] at h₁
      cases h₁
      simpa [isPlain] using hplain₀ _ hmem)
    (fun pos v e hmem => by simpa [isPlain] using hplain _ hmem)
    (fun pos name quoted hmem => by simpa [isPlain] using hplain _ hmem)
  refine ⟨t, w', code, h, hcode, ?_⟩
  rw [if_neg (by decide +kernel)] at hcall
  exact hcall

end Template
end Atmark
