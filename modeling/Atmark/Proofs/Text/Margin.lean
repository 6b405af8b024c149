import Mathlib.Data.List.Induction
import Mathlib.Data.List.ModifyLast
import Atmark.Proofs.Path.Walk
import Atmark.Proofs.Token.Positions
import Atmark.Text.Trim

/-! The indentation that lines share. Prose nested in a template starts at its margin, the longest indentation
that all its lines start with (`IsMargin`). Dedenting takes the margin off each of them, but it trims the text as
a whole as well, so the first line starts at the margin however far it was indented beyond it (`dedent_lines`). -/
namespace Atmark.Text

/-! ## White space of ASCII texts -/

/-- All bytes are ASCII characters. -/
def IsAscii (t : Text) : Prop := ∀ b ∈ t, b.toNat < 0x80

/-- The byte is white space by itself. -/
def isBlankByte (b : UInt8) : Bool := isBlank (Char.ofNat b.toNat)

/-- The text from the first byte on that is no white space. -/
def trimStart (t : Text) : Text := t.dropWhile isBlankByte

/-- The text up to the last byte that is no white space. -/
def trimEnd (t : Text) : Text := dropEndWhile isBlankByte t

theorem isBlankByte_of_isIndent {b : UInt8} (h : isIndent b = true) : isBlankByte b = true := by
  have hb : b = 0x20 ∨ b = 0x09 := by simpa [isIndent] using h
  rcases hb with rfl | rfl <;> decide

theorem IsAscii.mono {t u : Text} (h : t.IsAscii) (hu : u ⊆ t) : u.IsAscii := by
  intro b hb
  exact h b (hu hb)

theorem IsAscii.pieces {t : Text} (h : t.IsAscii) :
    pieces t = t.map fun b => ⟨some (Char.ofNat b.toNat), [b]⟩ := by
  induction t with
  | nil => rfl
  | cons b r ih =>
    have hb : b.toNat < 0x80 := h b List.mem_cons_self
    have hvalid : b.toNat.isValidChar := .inl (by omega)
    have hchar : Char.ofNatAux b.toNat hvalid = Char.ofNat b.toNat := (dif_pos hvalid).symm
    have hdecode : decode? (b :: r) = some (Char.ofNat b.toNat, 1) := by
      dsimp only [decode?]
      rw [if_pos hb, scalar?, dif_pos hvalid, if_pos (Nat.zero_le _), hchar]
    have hrest := ih (h.mono (List.subset_cons_self b r))
    rw [pieces_cons, firstPiece, hdecode]
    simpa using hrest

/-- An ASCII text is trimmed byte by byte. -/
theorem IsAscii.trim {t : Text} (h : t.IsAscii) : trim t = trimEnd (trimStart t) := by
  have hjoin (u : Text) : joinPieces (u.map fun b => ⟨some (Char.ofNat b.toNat), [b]⟩) = u := by
    induction u with
    | nil => rfl
    | cons b u ih => rw [List.map_cons, joinPieces, List.flatMap_cons, ← joinPieces, ih]; rfl
  have hblank : (fun p : Piece => isBlank p.rune) ∘
      (fun b : UInt8 => (⟨some (Char.ofNat b.toNat), [b]⟩ : Piece)) = isBlankByte := rfl
  rw [Text.trim, h.pieces, List.dropWhile_map, hblank, dropEndWhile, ← List.map_reverse,
    List.dropWhile_map, hblank, ← List.map_reverse, hjoin]
  rfl

theorem trimEnd_eq (t : Text) : trimEnd t = (trimStart t.reverse).reverse := rfl

theorem trimStart_eq_nil {t : Text} : trimStart t = [] ↔ ∀ b ∈ t, isBlankByte b = true := by
  rw [trimStart, List.dropWhile_eq_nil_iff]

theorem trimEnd_eq_nil {t : Text} : trimEnd t = [] ↔ ∀ b ∈ t, isBlankByte b = true := by
  rw [trimEnd_eq, List.reverse_eq_nil_iff, trimStart_eq_nil]
  simp

theorem trimStart_append (t u : Text) :
    trimStart (t ++ u) = if trimStart t = [] then trimStart u else trimStart t ++ u := by
  rw [trimStart, List.dropWhile_append]
  by_cases ht : trimStart t = []
  · rw [if_pos ht]
    exact if_pos (List.isEmpty_iff.mpr ht)
  · rw [if_neg ht]
    exact if_neg fun hempty => ht (List.isEmpty_iff.mp hempty)

theorem trimEnd_append (t u : Text) :
    trimEnd (t ++ u) = if trimEnd u = [] then trimEnd t else t ++ trimEnd u := by
  rw [trimEnd_eq, List.reverse_append, trimStart_append]
  by_cases hu : trimEnd u = []
  · have hu' : trimStart u.reverse = [] := by rwa [trimEnd_eq, List.reverse_eq_nil_iff] at hu
    rw [if_pos hu', if_pos hu]
    rfl
  · have hu' : trimStart u.reverse ≠ [] := by
      intro hnil
      exact hu (by rw [trimEnd_eq, hnil]; rfl)
    rw [if_neg hu', if_neg hu, List.reverse_append, List.reverse_reverse]
    rfl

theorem trimStart_subset (t : Text) : trimStart t ⊆ t := (List.dropWhile_sublist _).subset

theorem trimEnd_subset (t : Text) : trimEnd t ⊆ t := by
  intro b hb
  have hmem := trimStart_subset t.reverse (List.mem_reverse.mp (by rwa [trimEnd_eq] at hb))
  exact List.mem_reverse.mp hmem

/-! ## Lines -/

/-- The line holds something else than white space. -/
def isProse (line : Text) : Bool := !(trim line).isEmpty

/-- The lines of a text that are not blank. -/
def proseLines (t : Text) : List Text := (splitOn 0x0A t).filter isProse

/-- The lines as one text. -/
def joinLines (ls : List Text) : Text := intercalate [0x0A] ls

/-- The line is ASCII and does not go on after its end. -/
structure IsLine (l : Text) : Prop where
  ascii : l.IsAscii
  unbroken : 0x0A ∉ l

theorem IsLine.mono {l u : Text} (h : IsLine l) (hu : u ⊆ l) : IsLine u :=
  ⟨h.ascii.mono hu, fun hbreak => h.unbroken (hu hbreak)⟩

/-- An ASCII line is blank if all its bytes are. -/
theorem IsAscii.isProse_eq_false {l : Text} (h : l.IsAscii) :
    isProse l = false ↔ ∀ b ∈ l, isBlankByte b = true := by
  have hprose : isProse l = false ↔ trimEnd (trimStart l) = [] := by simp [isProse, h.trim]
  rw [hprose]
  constructor
  · intro hend
    by_contra hsome
    have hstart : trimStart l ≠ [] := fun hnil => hsome (trimStart_eq_nil.mp hnil)
    have hhead : isBlankByte ((trimStart l).head hstart) = false := List.head_dropWhile_not _ hstart
    have hblank := trimEnd_eq_nil.mp hend _ (List.head_mem hstart)
    rw [hhead] at hblank
    cases hblank
  · intro hall
    rw [trimStart_eq_nil.mpr hall]
    rfl

theorem IsAscii.trimStart_eq_nil_iff {l : Text} (h : l.IsAscii) : trimStart l = [] ↔ isProse l = false :=
  trimStart_eq_nil.trans h.isProse_eq_false.symm

theorem IsAscii.trimEnd_eq_nil_iff {l : Text} (h : l.IsAscii) : trimEnd l = [] ↔ isProse l = false :=
  trimEnd_eq_nil.trans h.isProse_eq_false.symm

/-- A line is blank or not, whatever white space stands before it. -/
theorem IsAscii.isProse_append {m l : Text} (h : (m ++ l).IsAscii) (hm : ∀ b ∈ m, isBlankByte b = true) :
    isProse (m ++ l) = isProse l := by
  have hl : l.IsAscii := h.mono (List.subset_append_right m l)
  have hiff : isProse (m ++ l) = false ↔ isProse l = false := by
    rw [h.isProse_eq_false, hl.isProse_eq_false]
    constructor
    · intro hall b hb
      exact hall b (List.mem_append_right m hb)
    · intro hall b hb
      rcases List.mem_append.mp hb with hb | hb
      · exact hm b hb
      · exact hall b hb
  cases hprose : isProse l
  · exact hiff.mpr hprose
  · by_contra hnot
    exact absurd (hiff.mp (Bool.not_eq_true _ ▸ hnot)) (by simp [hprose])

theorem IsAscii.isProse_trimStart {l : Text} (h : l.IsAscii) : isProse (trimStart l) = isProse l := by
  have hsplit : l.takeWhile isBlankByte ++ trimStart l = l := List.takeWhile_append_dropWhile
  have hblank : ∀ b ∈ l.takeWhile isBlankByte, isBlankByte b = true := fun b hb => List.mem_takeWhile_imp hb
  have happend := IsAscii.isProse_append (l := trimStart l) (by rwa [hsplit]) hblank
  rw [hsplit] at happend
  exact happend.symm

theorem IsAscii.isProse_trimEnd {l : Text} (h : l.IsAscii) (hl : isProse l = true) : isProse (trimEnd l) = true := by
  by_contra hnot
  have hblank := (h.mono (trimEnd_subset l)).isProse_eq_false.mp (Bool.not_eq_true _ ▸ hnot)
  have hend : trimEnd l ≠ [] := fun hnil => by simp [h.trimEnd_eq_nil_iff.mp hnil] at hl
  have hrev : trimStart l.reverse ≠ [] := fun hnil => hend (by rw [trimEnd_eq, hnil]; rfl)
  have hhead : isBlankByte ((trimStart l.reverse).head hrev) = false := List.head_dropWhile_not _ hrev
  have hmem : (trimStart l.reverse).head hrev ∈ trimEnd l := by
    rw [trimEnd_eq]
    exact List.mem_reverse.mpr (List.head_mem hrev)
  rw [hblank _ hmem] at hhead
  cases hhead

theorem joinLines_cons {l : Text} {ls : List Text} (h : ls ≠ []) : joinLines (l :: ls) = l ++ 0x0A :: joinLines ls := by
  cases ls with
  | nil => exact absurd rfl h
  | cons m ms => simp [joinLines, intercalate]

theorem joinLines_concat {ls : List Text} (h : ls ≠ []) (l : Text) :
    joinLines (ls ++ [l]) = joinLines ls ++ 0x0A :: l := by
  induction ls with
  | nil => exact absurd rfl h
  | cons m ms ih =>
    by_cases hms : ms = []
    · subst hms
      simp [joinLines, intercalate]
    · rw [List.cons_append, joinLines_cons (by simp), ih hms, joinLines_cons hms]
      simp

theorem proseLines_joinLines {ls : List Text} (h : ∀ l ∈ ls, IsLine l) :
    proseLines (joinLines ls) = ls.filter isProse := by
  by_cases hls : ls = []
  · subst hls
    decide
  · rw [proseLines, joinLines, Path.splitOn_eq, Path.intercalate_eq,
      List.splitOn_intercalate _ (fun l hl => (h l hl).unbroken) hls]

theorem joinLines_splitOn (t : Text) : joinLines (splitOn 0x0A t) = t := by
  rw [joinLines, Path.splitOn_eq, Path.intercalate_eq, List.intercalate_splitOn]

theorem unbroken_of_mem_splitOn {sep : UInt8} {t l : Text} (h : l ∈ splitOn sep t) : sep ∉ l ∧ l ⊆ t := by
  induction t generalizing l with
  | nil =>
    have hl : l = [] := by simpa [splitOn] using h
    simp [hl]
  | cons b r ih =>
    by_cases hb : b = sep
    · rcases List.mem_cons.mp (by simpa [splitOn, hb] using h) with rfl | hl
      · simp
      · obtain ⟨hfree, hsub⟩ := ih hl
        exact ⟨hfree, List.Subset.trans hsub (List.subset_cons_self b r)⟩
    · cases hs : splitOn sep r with
      | nil =>
        have hl : l = [b] := by simpa [splitOn, hb, hs] using h
        simp [hl, Ne.symm hb]
      | cons u us =>
        rcases List.mem_cons.mp (by simpa [splitOn, hb, hs] using h) with rfl | hl
        · obtain ⟨hfree, hsub⟩ := ih (l := u) (by simp [hs])
          exact ⟨by simp [Ne.symm hb, hfree], List.cons_subset_cons b hsub⟩
        · obtain ⟨hfree, hsub⟩ := ih (l := l) (by simp [hs, hl])
          exact ⟨hfree, List.Subset.trans hsub (List.subset_cons_self b r)⟩

theorem IsAscii.isLine {t : Text} (h : t.IsAscii) : ∀ l ∈ splitOn 0x0A t, IsLine l := by
  intro l hl
  obtain ⟨hfree, hsub⟩ := unbroken_of_mem_splitOn hl
  exact ⟨h.mono hsub, hfree⟩

theorem isAscii_joinLines {ls : List Text} (h : ∀ l ∈ ls, IsLine l) : (joinLines ls).IsAscii := by
  induction ls with
  | nil => intro b hb; cases hb
  | cons l ls ih =>
    have hline : l.IsAscii := (h l List.mem_cons_self).ascii
    have hrest := ih fun m hm => h m (List.mem_cons_of_mem l hm)
    by_cases hls : ls = []
    · subst hls
      exact hline
    · rw [joinLines_cons hls]
      intro b hb
      rcases List.mem_append.mp hb with hb | hb
      · exact hline b hb
      · rcases List.mem_cons.mp hb with rfl | hb
        · decide
        · exact hrest b hb

/-! ## Prose in the lines of a trimmed text -/

theorem proseLines_trimStart_joinLines {ls : List Text} (h : ∀ l ∈ ls, IsLine l) :
    proseLines (trimStart (joinLines ls)) = (ls.filter isProse).modifyHead trimStart := by
  -- Blank lines at the front go one by one; the first line of prose stops the trimming.
  induction ls with
  | nil => decide
  | cons l ls ih =>
    have hline : IsLine l := h l List.mem_cons_self
    have hrest : ∀ m ∈ ls, IsLine m := fun m hm => h m (List.mem_cons_of_mem l hm)
    have htrimmed : IsLine (trimStart l) := hline.mono (trimStart_subset l)
    cases hprose : isProse l
    · have hnil : trimStart l = [] := hline.ascii.trimStart_eq_nil_iff.mpr hprose
      rw [List.filter_cons_of_neg (by simp [hprose]), ← ih hrest]
      by_cases hls : ls = []
      · subst hls
        show proseLines (trimStart l) = _
        rw [hnil]
        rfl
      · rw [joinLines_cons hls, trimStart_append, if_pos hnil]
        rfl
    · have hsome : trimStart l ≠ [] := by
        intro hnil
        simp [hline.ascii.trimStart_eq_nil_iff.mp hnil] at hprose
      have hjoined : trimStart (joinLines (l :: ls)) = joinLines (trimStart l :: ls) := by
        by_cases hls : ls = []
        · subst hls
          rfl
        · rw [joinLines_cons hls, joinLines_cons hls, trimStart_append, if_neg hsome]
      have hstays : isProse (trimStart l) = true := by rw [hline.ascii.isProse_trimStart, hprose]
      rw [hjoined, proseLines_joinLines, List.filter_cons_of_pos hstays, List.filter_cons_of_pos hprose,
        List.modifyHead_cons]
      intro m hm
      rcases List.mem_cons.mp hm with rfl | hm
      · exact htrimmed
      · exact hrest m hm

theorem proseLines_trimEnd_joinLines {ls : List Text} (h : ∀ l ∈ ls, IsLine l) :
    proseLines (trimEnd (joinLines ls)) = (ls.filter isProse).modifyLast trimEnd := by
  induction ls using List.reverseRecOn with
  | nil => decide
  | append_singleton ls l ih =>
    have hline : IsLine l := h l (by simp)
    have hrest : ∀ m ∈ ls, IsLine m := fun m hm => h m (by simp [hm])
    have htrimmed : IsLine (trimEnd l) := hline.mono (trimEnd_subset l)
    cases hprose : isProse l
    · have hnil : trimEnd l = [] := hline.ascii.trimEnd_eq_nil_iff.mpr hprose
      have hfilter : (ls ++ [l]).filter isProse = ls.filter isProse := by simp [hprose]
      rw [hfilter, ← ih hrest]
      by_cases hls : ls = []
      · subst hls
        show proseLines (trimEnd l) = _
        rw [hnil]
        rfl
      · have hblank : trimEnd (0x0A :: l) = [] := by
          show trimEnd ([0x0A] ++ l) = []
          rw [trimEnd_append, if_pos hnil]
          rfl
        rw [joinLines_concat hls, trimEnd_append, if_pos hblank]
    · have hsome : trimEnd l ≠ [] := by
        intro hnil
        simp [hline.ascii.trimEnd_eq_nil_iff.mp hnil] at hprose
      have hjoined : trimEnd (joinLines (ls ++ [l])) = joinLines (ls ++ [trimEnd l]) := by
        by_cases hls : ls = []
        · subst hls
          rfl
        · have hbreak : trimEnd (0x0A :: l) = 0x0A :: trimEnd l := by
            show trimEnd ([0x0A] ++ l) = _
            rw [trimEnd_append, if_neg hsome]
            rfl
          rw [joinLines_concat hls, joinLines_concat hls, trimEnd_append, if_neg (by simp [hbreak]), hbreak]
      have hstays : isProse (trimEnd l) = true := hline.ascii.isProse_trimEnd hprose
      rw [hjoined, proseLines_joinLines, List.filter_append, List.filter_append,
        List.filter_cons_of_pos hstays, List.filter_cons_of_pos hprose, List.filter_nil, List.modifyLast_concat]
      intro m hm
      rcases List.mem_append.mp hm with hm | hm
      · exact hrest m hm
      · rw [List.mem_singleton.mp hm]
        exact htrimmed

theorem IsAscii.proseLines_trimEnd {t : Text} (h : t.IsAscii) :
    proseLines (trimEnd t) = (proseLines t).modifyLast trimEnd := by
  have hjoin : joinLines (splitOn 0x0A t) = t := joinLines_splitOn t
  have hlast := proseLines_trimEnd_joinLines h.isLine
  rw [hjoin] at hlast
  exact hlast

theorem proseLines_concat_break (t : Text) : proseLines (t ++ [0x0A]) = proseLines t := by
  have hsplit : splitOn 0x0A (t ++ [0x0A]) = splitOn 0x0A t ++ [[]] := by
    rw [Path.splitOn_eq, Path.splitOn_eq, List.splitOn_append_cons_self, List.splitOn_nil]
  have hblank : [([] : Text)].filter isProse = [] := by decide
  rw [proseLines, hsplit, List.filter_append, hblank, List.append_nil, proseLines]

/-! ## The margin -/

theorem commonStart_prefix_left (s t : Text) : commonStart s t <+: s := by
  fun_induction commonStart s t with
  | case1 a s t ih => exact (List.cons_prefix_cons).mpr ⟨rfl, ih⟩
  | case2 => exact List.nil_prefix
  | case3 => exact List.nil_prefix

theorem commonStart_prefix_right (s t : Text) : commonStart s t <+: t := by
  fun_induction commonStart s t with
  | case1 a s t ih => exact (List.cons_prefix_cons).mpr ⟨rfl, ih⟩
  | case2 => exact List.nil_prefix
  | case3 => exact List.nil_prefix

theorem prefix_commonStart {m s t : Text} (hs : m <+: s) (ht : m <+: t) : m <+: commonStart s t := by
  induction m generalizing s t with
  | nil => exact List.nil_prefix
  | cons b m ih =>
    obtain ⟨s', rfl⟩ := hs
    obtain ⟨t', rfl⟩ := ht
    have hrest := ih (List.prefix_append m s') (List.prefix_append m t')
    simpa [commonStart] using hrest

theorem foldl_commonStart_prefix (is : List Text) (i : Text) :
    is.foldl commonStart i <+: i ∧ ∀ j ∈ is, is.foldl commonStart i <+: j := by
  induction is generalizing i with
  | nil => exact ⟨List.prefix_rfl, by simp⟩
  | cons k is ih =>
    obtain ⟨hfirst, hrest⟩ := ih (commonStart i k)
    refine ⟨hfirst.trans (commonStart_prefix_left i k), ?_⟩
    intro j hj
    rcases List.mem_cons.mp hj with rfl | hj
    · exact hfirst.trans (commonStart_prefix_right i j)
    · exact hrest j hj

theorem prefix_foldl_commonStart {m i : Text} {is : List Text} (hi : m <+: i) (his : ∀ j ∈ is, m <+: j) :
    m <+: is.foldl commonStart i := by
  induction is generalizing i with
  | nil => exact hi
  | cons k is ih =>
    have hk : m <+: k := his k List.mem_cons_self
    exact ih (prefix_commonStart hi hk) fun j hj => his j (List.mem_cons_of_mem k hj)

/-- The longest indentation that all the lines start with. -/
structure IsMargin (margin : Text) (lines : List Text) : Prop where
  indent : ∀ b ∈ margin, isIndent b = true
  shared : ∀ l ∈ lines, margin <+: l
  longest : lines ≠ [] → ∀ m : Text, (∀ b ∈ m, isIndent b = true) → (∀ l ∈ lines, m <+: l) → m <+: margin

theorem indentOf_isPrefix (l : Text) : indentOf l <+: l := List.takeWhile_prefix _

theorem prefix_indentOf {m l : Text} (hm : ∀ b ∈ m, isIndent b = true) (h : m <+: l) : m <+: indentOf l := by
  obtain ⟨r, rfl⟩ := h
  rw [indentOf, List.takeWhile_append_of_pos hm]
  exact List.prefix_append m _

theorem isMargin_commonIndent (lines : List Text) : IsMargin (commonIndent lines) (lines.filter isProse) := by
  have hfilter : (lines.filter fun l => !(trim l).isEmpty) = lines.filter isProse := rfl
  unfold commonIndent
  rw [hfilter]
  cases lines.filter isProse with
  | nil => exact ⟨by simp, by simp, by simp⟩
  | cons l ls =>
    obtain ⟨hfirst, hrest⟩ := foldl_commonStart_prefix (ls.map indentOf) (indentOf l)
    refine ⟨?_, ?_, ?_⟩
    · intro b hb
      exact List.mem_takeWhile_imp (hfirst.subset hb)
    · intro k hk
      rcases List.mem_cons.mp hk with rfl | hk
      · exact hfirst.trans (indentOf_isPrefix k)
      · exact (hrest _ (List.mem_map_of_mem hk)).trans (indentOf_isPrefix k)
    · intro _ m hm hall
      refine prefix_foldl_commonStart (prefix_indentOf hm (hall l List.mem_cons_self)) ?_
      intro j hj
      obtain ⟨k, hk, rfl⟩ := List.mem_map.mp hj
      exact prefix_indentOf hm (hall k (List.mem_cons_of_mem l hk))

/-- The line without the margin, where it starts with it. -/
def cutMargin (margin l : Text) : Text := (strip? margin l).getD l

theorem cutMargin_of_prefix {margin l : Text} (h : margin <+: l) : cutMargin margin l = l.drop margin.length := by
  obtain ⟨r, rfl⟩ := h
  rw [cutMargin, strip?_append, List.drop_left]
  rfl

theorem cutMargin_suffix (margin l : Text) : cutMargin margin l = l ∨ l = margin ++ cutMargin margin l := by
  cases hs : strip? margin l with
  | none => exact .inl (by simp [cutMargin, hs])
  | some r => exact .inr (by simpa [cutMargin, hs] using eq_append_of_strip? hs)

theorem IsLine.cutMargin {margin l : Text} (h : IsLine l) : IsLine (cutMargin margin l) := by
  refine h.mono ?_
  rcases cutMargin_suffix margin l with hsame | hcut
  · rw [hsame]
    exact List.Subset.refl l
  · intro b hb
    rw [hcut]
    exact List.mem_append_right margin hb

theorem IsLine.isProse_cutMargin {margin l : Text} (h : IsLine l) (hm : ∀ b ∈ margin, isIndent b = true) :
    isProse (Text.cutMargin margin l) = isProse l := by
  rcases cutMargin_suffix margin l with hsame | hcut
  · rw [hsame]
  · have happend := IsAscii.isProse_append (m := margin) (by rw [← hcut]; exact h.ascii)
      fun b hb => isBlankByte_of_isIndent (hm b hb)
    rw [← hcut] at happend
    exact happend.symm

/-- Cutting the margin off all lines takes it off the lines of prose and leaves the blank ones blank. -/
theorem filter_cutMargin {margin : Text} {ls : List Text} (h : ∀ l ∈ ls, IsLine l)
    (hm : IsMargin margin (ls.filter isProse)) :
    (ls.map (cutMargin margin)).filter isProse = (ls.filter isProse).map (·.drop margin.length) := by
  have hsame : ls.filter (isProse ∘ cutMargin margin) = ls.filter isProse :=
    List.filter_congr fun l hl => (h l hl).isProse_cutMargin hm.indent
  rw [List.filter_map, hsame]
  refine List.map_congr_left ?_
  intro l hl
  exact cutMargin_of_prefix (hm.shared l hl)

theorem proseLines_trim_joinLines {ls : List Text} (h : ∀ l ∈ ls, IsLine l) :
    proseLines (trim (joinLines ls)) = ((ls.filter isProse).modifyHead trimStart).modifyLast trimEnd := by
  have hascii : (joinLines ls).IsAscii := isAscii_joinLines h
  calc
    proseLines (trim (joinLines ls))
      = proseLines (trimEnd (trimStart (joinLines ls))) := by rw [hascii.trim]
    _ = (proseLines (trimStart (joinLines ls))).modifyLast trimEnd :=
        (hascii.mono (trimStart_subset _)).proseLines_trimEnd
    _ = ((ls.filter isProse).modifyHead trimStart).modifyLast trimEnd := by
        rw [proseLines_trimStart_joinLines h]

/-- The lines of prose of a dedented text are those of the text without their margin. The text is trimmed as a
whole at last, which takes the white space off the end of the last line, and off the start of the first one what
is left of its indentation. -/
theorem dedent_lines (t : Text) (h : t.IsAscii) :
    ∃ margin, IsMargin margin (proseLines t) ∧
      proseLines (dedent t) =
        (((proseLines t).map (·.drop margin.length)).modifyHead trimStart).modifyLast trimEnd := by
  have hlines : ∀ l ∈ splitOn 0x0A t, IsLine l := h.isLine
  have hmargin : IsMargin (commonIndent (splitOn 0x0A t)) (proseLines t) := isMargin_commonIndent _
  have hcut : ∀ l ∈ (splitOn 0x0A t).map (cutMargin (commonIndent (splitOn 0x0A t))), IsLine l := by
    intro l hl
    obtain ⟨k, hk, rfl⟩ := List.mem_map.mp hl
    exact (hlines k hk).cutMargin
  have htrim := proseLines_trim_joinLines hcut
  rw [filter_cutMargin hlines hmargin] at htrim
  refine ⟨_, hmargin, ?_⟩
  show proseLines (trim (joinLines _) ++ [0x0A]) = _
  rw [proseLines_concat_break]
  exact htrim

/-- The second line gives the margin, two spaces. The third keeps the space it has beyond it, the first loses
its two. -/
theorem dedent_lines_code :
    IsAscii (utf8 "    code\n  text\n\n   more \n") ∧
    proseLines (dedent (utf8 "    code\n  text\n\n   more \n")) = [utf8 "code", utf8 "text", utf8 " more"] ∧
    ∃ margin, IsMargin margin [utf8 "    code", utf8 "  text", utf8 "   more "] ∧
      [utf8 "code", utf8 "text", utf8 " more"] =
        (([utf8 "    code", utf8 "  text", utf8 "   more "].map (·.drop margin.length)).modifyHead
          trimStart).modifyLast trimEnd := by
  have hascii : IsAscii (utf8 "    code\n  text\n\n   more \n") := by
    show ∀ b ∈ utf8 "    code\n  text\n\n   more \n", b.toNat < 0x80
    decide +kernel
  have hprose : proseLines (utf8 "    code\n  text\n\n   more \n") =
      [utf8 "    code", utf8 "  text", utf8 "   more "] := by decide +kernel
  have hdedent : proseLines (dedent (utf8 "    code\n  text\n\n   more \n")) =
      [utf8 "code", utf8 "text", utf8 " more"] := by decide +kernel
  have hlines := dedent_lines _ hascii
  rw [hprose, hdedent] at hlines
  exact ⟨hascii, hdedent, hlines⟩

end Atmark.Text
