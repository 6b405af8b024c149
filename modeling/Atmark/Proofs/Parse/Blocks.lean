import Atmark.Proofs.Parse.Declared

/-! The blocks of code that a template declares for a section. A parse records the directive of each block, included
files add none, and the section holds the blocks one after another (`Template.declared_blocks`). -/
namespace Atmark
open Node ParseM

/-- The sections of a generated file that code is declared for. -/
inductive CodeSection where
  | functions
  | fields
  | methods
  deriving DecidableEq

/-- The directive that adds a block to the section. -/
def CodeSection.name : CodeSection → Text
  | functions => utf8 "functions"
  | fields => utf8 "struct"
  | methods => utf8 "impl"

/-- A block of code between braces after the directive that declares it. -/
structure CodeBlock where
  id : Ident
  frame : Frame
  tokens : List Token

/-- The debug record of a directive in the file at a path. -/
def directiveRecord (path : Text) (id : Ident) : Record :=
  { message := "directive"
    fields := [("component", utf8 "parser"), ("path", path), ("name", id.name),
      ("pos", (id.pos.getD .zero).label)] }

/-- The records of directives of a name in a log, the latest first. -/
def recordsOf (name : Text) (log : List Record) : List Record :=
  log.filter fun r => r.message = "directive" && r.fields.contains ("name", name)

/-- The source has a directive of the name with the block after it. -/
structure CodeBlock.In (b : CodeBlock) (name data : Text) : Prop where
  name : b.id.name = name
  brace : b.frame.delim = .brace
  part : ∃ rest, Token.Part (Token.ofSource data) (.ident b.id :: .group b.frame b.tokens :: rest)

namespace Directive.Declares
variable {id : Ident} {ts : List Token} {d : Option Declaration} (h : Declares id ts d) {s : CodeSection}
include h

/-- A directive of a section declares the block after it. -/
theorem code_of_name (hname : id.name = s.name) :
    ∃ f block rest, ts = .group f block :: rest ∧ f.delim = .brace ∧ d = some (.code id.name f block) := by
  cases h with
  | code _ hts hdelim => exact ⟨_, _, _, hts, hdelim, rfl⟩
  | nothing _ _ hview =>
    refine absurd ?_ hview
    rw [hname]
    cases s <;> decide
  | parameter hid =>
    rw [hname] at hid
    cases s <;> exact absurd hid (by decide)
  | use hid | inject hid | model hid | modelValue hid | name hid =>
    rw [hname] at hid
    cases s <;> exact absurd hid (by decide)

/-- Only the directives of a section add blocks to it. -/
theorem block?_of_ne {key : Text} (hname : id.name ≠ key) : ∀ x ∈ d, x.block? key = none := by
  intro x hx
  cases h <;> cases hx <;> simp [Declaration.block?, hname]

end Directive.Declares

/-- What was declared for a section over a file below some others since the log `before`: the blocks of the file,
which only a file below no other has, each of them recorded. -/
def CodeSection.HasBlocks (s : CodeSection) (includers : List Text) (file data : Text) (before : List Record)
    (d : Declarations) (after : List Record) : Prop :=
  ∃ bs : List CodeBlock, (∀ b ∈ bs, b.In s.name data ∧ includers = []) ∧
    recordsOf s.name after = (bs.map (directiveRecord file ·.id)).reverse ++ recordsOf s.name before ∧
    d.sectionOf? s.name = Declaration.joinAll none (bs.map fun b => (b.frame, b.tokens))

namespace CodeSection.HasBlocks
variable {s : CodeSection} {includers : List Text} {file data : Text} {before log log' : List Record}
  {d d' : Declarations}

theorem nil : s.HasBlocks includers file data before {} before := ⟨[], by simp, rfl, rfl⟩

/-- Other records do not count. -/
theorem note (h : s.HasBlocks includers file data before d log) {r : Record} (hr : r.message ≠ "directive") :
    s.HasBlocks includers file data before d (r :: log) := by
  obtain ⟨bs, hbs, hrecords, hsection⟩ := h
  refine ⟨bs, hbs, ?_, hsection⟩
  rw [← hrecords]
  simp [recordsOf, hr]

/-- One more directive. -/
theorem directive (h : s.HasBlocks includers file data before d log) {id : Ident} {ts : List Token}
    {x : Option Declaration} (hpart : Token.Part (Token.ofSource data) (.ident id :: ts))
    (hdeclares : Directive.Declares id ts x) (hroot : ∀ y ∈ x, y.isShared = false → includers = []) :
    s.HasBlocks includers file data before (x.elim d (·.addTo d)) (directiveRecord file id :: log) := by
  obtain ⟨bs, hbs, hrecords, hsection⟩ := h
  by_cases hname : id.name = s.name
  · obtain ⟨f, block, rest, rfl, hdelim, rfl⟩ := hdeclares.code_of_name hname
    let b : CodeBlock := ⟨id, f, block⟩
    have hb : b.In s.name data := ⟨hname, hdelim, rest, hpart⟩
    have hincluders : includers = [] := hroot _ rfl rfl
    refine ⟨bs ++ [b], ?_, ?_, ?_⟩
    · intro c hc
      rcases List.mem_append.mp hc with hc | hc
      · exact hbs c hc
      · exact List.mem_singleton.mp hc ▸ ⟨hb, hincluders⟩
    · have hcounts : recordsOf s.name (directiveRecord file id :: log) =
          directiveRecord file id :: recordsOf s.name log := by
        simp [recordsOf, directiveRecord, hname]
      rw [List.map_append, List.reverse_append, List.map_singleton, List.reverse_singleton, List.append_assoc,
        ← hrecords]
      exact hcounts
    · rw [Option.elim_some, Declaration.addTo, hname, Declaration.sectionOf?_putSection, if_pos rfl, hsection,
        List.map_append, Declaration.joinAll, List.foldl_append]
      rfl
  · refine ⟨bs, hbs, ?_, ?_⟩
    · rw [← hrecords]
      simp [recordsOf, directiveRecord, Ne.symm hname]
    · rw [← hsection]
      cases x with
      | none => rfl
      | some y =>
        have hnone := hdeclares.block?_of_ne hname y rfl
        simpa [hnone, Declaration.joinAll] using Declaration.foldl_addTo_section [y] d s.name

/-- An included file adds no block. -/
theorem template (h : s.HasBlocks includers file data before d log) {file' data' : Text}
    (h' : s.HasBlocks (includers ++ [file]) file' data' log d' log') (f : Fragment) :
    s.HasBlocks includers file data before (d.merge f) log' := by
  obtain ⟨bs, hbs, hrecords, hsection⟩ := h
  obtain ⟨us, hus, hrecords', -⟩ := h'
  have hnone : us = [] := by
    cases us with
    | nil => rfl
    | cons u us => exact absurd (hus u (.head _)).2 (by simp)
  subst hnone
  refine ⟨bs, hbs, by rw [← hrecords, hrecords']; rfl, ?_⟩
  rw [← hsection, Declarations.merge_eq]
  rfl

end CodeSection.HasBlocks

/-- Every block of a section is recorded, and the section holds the blocks. -/
def Contract.sectioning (s : CodeSection) (settings : Settings) (includers : List Text) (file data : Text)
    (before : List Record) : Contract where
  settings := settings
  path := file
  includers := includers
  tokens := Token.ofSource data
  error _ := True
  later _ _ _ _ := True
  inv x := s.HasBlocks includers file data before x.declared x.world.log
  pending f x := s.HasBlocks includers file data before (x.declared.merge f) x.world.log
  stopped _ _ := trivial
  unread _ _ _ _ := trivial
  fault _ _ _ := trivial
  postponed _ _ _ := trivial
  framed x x' hx hdeclared hlog _ := by simpa only [hdeclared, hlog] using hx
  pendingFramed f x x' hx hdeclared hlog _ := by simpa only [hdeclared, hlog] using hx
  note _ hmessage hx := hx.note hmessage
  directive {x id ts d} hpart hdeclares hd hpath hx := by
    have hrecord : (x.directed id).world.log = directiveRecord file id :: x.world.log := by
      simp [State.directed, State.noted, directiveRecord, hpath]
    rw [hrecord]
    exact hx.directive hpart hdeclares fun y hy => (hd y hy).2
  merge hx := hx
  hit {x c key f} hx _ _ := by
    have hnone : s.HasBlocks (includers ++ [file]) file data x.world.log {} x.world.log := .nil
    exact ⟨Postpone.of_forall fun _ _ _ _ => trivial, hx.template hnone f⟩
  put _ _ _ hx := hx
  pendingPut _ _ _ hx := hx

/-- The blocks that are declared over a file are recorded, and its section holds them. -/
theorem Registry.parseSource_blocks (s : CodeSection) {settings : Settings} {includers : List Text}
    {file data : Text} {n : Nat} {w w' : World} {ns : List Node} {d : Declarations}
    (hp : Registry.standard.parseSource settings n includers file data w = .ok (ns, d) w') :
    s.HasBlocks includers file data w.log d w'.log := by
  induction n generalizing includers file data w w' ns d with
  | zero => cases hp
  | succ n ih =>
    cases hlex : Token.lex data with
    | error e =>
      simp only [Registry.parseSource, hlex] at hp
      cases hp
    | ok p =>
      obtain ⟨tokens, trailing⟩ := p
      have htokens : tokens = Token.ofSource data := by rw [Token.ofSource, hlex]
      subst htokens
      have hembeds : (Contract.sectioning s settings includers file data w.log).Embeds
          (Registry.standard.embedIn settings n includers file) := by
        refine Contract.embeds_of (fun _ _ _ _ => trivial) ?_
        intro name file' data' _ _ _ x _ hx
        dsimp only [Contract.sectioning]
        cases hinner : Registry.standard.parseSource settings n (includers ++ [file]) file' data' x.world with
        | error e w' => trivial
        | ok out w' =>
          exact ⟨Postpone.of_forall fun _ _ _ _ => trivial, hx.template (ih hinner) _⟩
      have hmeets := Contract.parseSource_meets (Contract.standard_obeys _) rfl hlex hembeds (w := w)
        CodeSection.HasBlocks.nil
      dsimp only [Contract.sectioning] at hmeets
      rw [hp] at hmeets
      obtain ⟨-, x, hx, rfl, rfl⟩ := hmeets
      exact hx

/-- The records that a parse adds for a section are those of blocks of the template, and what is declared for the
section are these blocks, one after another. -/
theorem Template.declared_blocks (s : CodeSection) {settings : Settings} {path src : Text} {w w' : World}
    {t : Template} (h : parse .standard settings path src w = .ok t w') :
    ∃ bs : List CodeBlock, (∀ b ∈ bs, b.In s.name src) ∧
      recordsOf s.name w'.log = (bs.map (directiveRecord path ·.id)).reverse ++ recordsOf s.name w.log ∧
      t.declared.sectionOf? s.name = Declaration.joinAll none (bs.map fun b => (b.frame, b.tokens)) := by
  obtain ⟨bs, hbs, hrecords, hsection⟩ := Registry.parseSource_blocks s (parse_returns h)
  exact ⟨bs, fun b hb => (hbs b hb).1, hrecords, hsection⟩

end Atmark
