import Mathlib.Data.List.Infix
import Atmark.Proofs.Site.Templates
import Atmark.Proofs.Text.Pieces
import Atmark.View.Name

/-! Files that are written beside others. The path of a generated file is that of its template with an
ending, so writing it makes no directory and keeps the files a tree; all that can be read elsewhere stays as
it was (`Files.Wrote`). The files below a directory change as those of the whole tree do, and a site has the
templates that it had, as long as no generated file has their extension (`Site.templates_wrote`). -/
namespace Atmark
open Path

/-! ## Valid texts -/

namespace Text

theorem closed_of_isValid {t : Text} (h : isValid t = true) : Closed t := by
  have hpieces : ∀ p ∈ pieces t, ∃ c, p.bytes = String.utf8EncodeChar c := by
    intro p hp
    obtain ⟨c, hc⟩ := Option.isSome_iff_exists.mp (List.all_eq_true.mp h p hp)
    have hfrom : p ∈ piecesFrom 0 t := hp
    obtain ⟨b, r, hfirst⟩ := exists_firstPiece hfrom
    have hpiece : firstPiece b r = ⟨some c, p.bytes⟩ := by rw [← hfirst, ← hc]
    exact ⟨c, firstPiece_bytes_of_char hpiece⟩
  have hclosed := Closed.join hpieces
  rwa [pieces, joinPieces_piecesFrom, List.drop_zero] at hclosed

theorem Closed.isValid_append {t : Text} (h : Closed t) (u : Text) :
    isValid (t ++ u) = (isValid t && isValid u) := by
  rw [isValid, h, List.all_append]
  rfl

end Text

/-! ## Paths of generated files -/

namespace Path

theorem below_elements {p : Text} (h : isFilePath p = true) (hp : p ≠ here) : Below (elements p) := by
  have hall : ∀ e ∈ elements p, e ≠ [] ∧ e ≠ here ∧ e ≠ parent := by
    simpa [isFilePath, hp, and_assoc] using (Bool.and_eq_true_iff.mp h).2
  exact fun e he => ⟨(hall e he).1, (hall e he).2.1, (hall e he).2.2, undivided_of_mem_elements he⟩

theorem isFilePath_of_below {p : Text} (hvalid : Text.isValid p = true) (h : Below (elements p)) :
    isFilePath p = true := by
  have hall : (elements p).all (fun e => !e.isEmpty && e != here && e != parent) = true := by
    refine List.all_eq_true.mpr fun e he => ?_
    simp [(h e he).nonempty, (h e he).notHere, (h e he).notParent]
  rw [isFilePath, hvalid, hall]
  simp

end Path

namespace View

theorem slash_not_mem_generatedExtension : slash ∉ generatedExtension := by decide

/-- The name of a generated file goes on from that of its template. -/
theorem elements_outputPath {t e : Text} {dir : List Text} (h : elements t = dir ++ [e]) :
    elements (outputPath t) = dir ++ [e ++ generatedExtension] := by
  have he : slash ∉ e := undivided_of_mem_elements (p := t) (by simp [h])
  have hpath : outputPath t = ofElements (dir ++ [e ++ generatedExtension]) := by
    rw [outputPath, ofElements_append, ← ofElements_elements t, h, ofElements_append, List.append_assoc]
    rfl
  rw [hpath]
  refine elements_ofElements (by simp) fun f hf => ?_
  rcases List.mem_append.mp hf with hf | hf
  · exact undivided_of_mem_elements (p := t) (by simp [h, hf])
  · rw [List.mem_singleton.mp hf]
    simp [he, slash_not_mem_generatedExtension]

theorem isEntry_generated {e : Text} (h : IsEntry e) : IsEntry (e ++ generatedExtension) := by
  have hlong : 4 ≤ (e ++ generatedExtension).length := by
    have hone : 0 < e.length := List.length_pos_iff.mpr h.nonempty
    have hthree : generatedExtension.length = 3 := by decide
    rw [List.length_append]
    omega
  refine ⟨?_, ?_, ?_, by simp [h.undivided, slash_not_mem_generatedExtension]⟩
  · intro hnil
    simp [hnil] at hlong
  · intro hhere
    rw [hhere] at hlong
    exact absurd hlong (by decide)
  · intro hparent
    rw [hparent] at hlong
    exact absurd hlong (by decide)

theorem below_outputPath {t : Text} (h : Below (elements t)) : Below (elements (outputPath t)) := by
  have hsplit := (List.dropLast_append_getLast (elements_ne_nil t)).symm
  rw [elements_outputPath hsplit]
  intro e he
  rcases List.mem_append.mp he with he | he
  · exact h.dropLast e he
  · rw [List.mem_singleton.mp he]
    exact isEntry_generated (h _ (List.getLast_mem _))

theorem isFilePath_outputPath {t : Text} (h : isFilePath t = true) (ht : t ≠ here) :
    isFilePath (outputPath t) = true := by
  have hvalid : Text.isValid t = true := (Bool.and_eq_true_iff.mp h).1
  refine isFilePath_of_below ?_ (below_outputPath (below_elements h ht))
  rw [outputPath, (Text.closed_of_isValid hvalid).isValid_append, hvalid]
  decide

/-- The directories that a generated file lies in are those of its template. -/
theorem startsWith_of_outputPath {dir t : Text}
    (h : Text.startsWith (dir ++ [slash]) (outputPath t) = true) : Text.startsWith (dir ++ [slash]) t = true := by
  obtain ⟨r, hr⟩ := startsWith_iff.mp h
  rw [startsWith_iff]
  rcases List.append_eq_append_iff.mp hr with ⟨u, hu, hext⟩ | ⟨u, hu, -⟩
  · -- the slash cannot be one of the ending
    cases List.eq_nil_or_concat u with
    | inl hnil => exact ⟨[], by simpa [hnil] using hu.symm⟩
    | inr hlast =>
      obtain ⟨v, b, rfl⟩ := hlast
      have hb : b = slash := by
        have hlasts := congrArg List.getLast? hu
        simpa using hlasts.symm
      refine absurd ?_ slash_not_mem_generatedExtension
      rw [hext, hb]
      simp
  · exact ⟨u, hu⟩

/-! ## Extensions of generated files -/

/-- The ending of generated files some times over. -/
def generatedTimes (n : Nat) : Text := (List.replicate n generatedExtension).flatten

theorem generatedTimes_succ (n : Nat) : generatedTimes (n + 1) = generatedTimes n ++ generatedExtension := by
  rw [generatedTimes, List.replicate_succ', List.flatten_append]
  rfl

/-- A text that starts with a dot ends itself with the ending put to it only if it is made of that. -/
theorem exists_generatedTimes {ext : Text} (hdot : ext ≠ [] → ext.head? = some 0x2E)
    (h : ext <:+ ext ++ generatedExtension) : ∃ n, ext = generatedTimes n := by
  induction hlen : ext.length using Nat.strongRecOn generalizing ext with
  | ind k ih =>
    rcases List.suffix_or_suffix_of_suffix h (List.suffix_append ext generatedExtension) with hshort | hlong
    · -- only the whole ending starts with a dot
      by_cases hnil : ext = []
      · exact ⟨0, hnil⟩
      · have hsuffix : ∀ u ∈ generatedExtension.tails, u.head? = some 0x2E → u = generatedExtension := by decide
        have hext := hsuffix ext ((List.mem_tails _ _).mpr hshort) (hdot hnil)
        exact ⟨1, by rw [hext]; rfl⟩
    · obtain ⟨rest, rfl⟩ := hlong
      have hrest : rest <:+ rest ++ generatedExtension := (List.suffix_append_self_iff).mp h
      have hhead : rest ≠ [] → rest.head? = some 0x2E := by
        intro hne
        have hfirst := hdot (by simp [hne])
        rwa [List.head?_append_of_ne_nil _ hne] at hfirst
      have hshorter : rest.length < k := by
        have hthree : generatedExtension.length = 3 := by decide
        rw [← hlen, List.length_append]
        omega
      obtain ⟨n, hn⟩ := ih rest.length hshorter hhead hrest rfl
      exact ⟨n + 1, by rw [generatedTimes_succ, ← hn]⟩

/-- The path of a generated file has the extension of its template only if that is the ending of generated
files, perhaps several times. -/
theorem endsWith_outputPath_iff {ext t : Text} (hext : Config.isExtension ext = true)
    (ht : Text.endsWith ext t = true) :
    Text.endsWith ext (outputPath t) = true ↔ ∃ n, ext = generatedTimes n := by
  rw [Text.endsWith_iff] at ht ⊢
  obtain ⟨u, rfl⟩ := ht
  have hdot : ext.head? = some 0x2E := by
    simp only [Config.isExtension, Bool.and_eq_true, decide_eq_true_eq] at hext
    exact hext.1.1.2
  have hout : outputPath (u ++ ext) = u ++ (ext ++ generatedExtension) := List.append_assoc _ _ _
  rw [hout]
  constructor
  · intro h
    refine exists_generatedTimes (fun _ => hdot) ?_
    exact List.suffix_of_suffix_length_le h (List.suffix_append _ _) (by simp)
  · rintro ⟨n, rfl⟩
    have hcomm : generatedTimes n ++ generatedExtension = generatedExtension ++ generatedTimes n := by
      rw [← generatedTimes_succ, generatedTimes, List.replicate_succ, List.flatten_cons]
      rfl
    rw [hcomm, ← List.append_assoc]
    exact List.suffix_append _ _

end View

/-! ## Files beside others -/

namespace Files
open View
variable {fs fs' fs'' : Files} {p q data : Text} {new new' : List (Text × Text)}

theorem isDirectory_eq (fs : Files) (p : Text) :
    fs.isDirectory p = (p = here || fs.paths.any (Text.startsWith (p ++ [slash]))) := by
  rw [isDirectory, paths, List.any_map]
  rfl

theorem paths_put (fs : Files) (p data : Text) :
    (fs.put p data).paths = if p ∈ fs.paths then fs.paths else fs.paths ++ [p] := by
  have hany : fs.entries.any (·.1 = p) = true ↔ p ∈ fs.paths := by
    simp [paths]
  unfold put
  split
  · rename_i h
    rw [if_pos (hany.mp h), paths, paths, List.map_map]
    refine List.map_congr_left fun e _ => ?_
    by_cases he : e.1 = p <;> simp [he]
  · rename_i h
    rw [if_neg fun hp => h (hany.mpr hp), paths, List.map_append]
    rfl

theorem get?_put (fs : Files) (p data : Text) : (fs.put p data).get? p = some data := by
  unfold put
  split
  · rename_i h
    rw [get?, List.find?_map, Option.map_map]
    obtain ⟨e, he, hp⟩ := List.any_eq_true.mp h
    cases hfind : fs.entries.find? ((fun e : Text × Text => decide (e.1 = p)) ∘
        fun e => if e.1 = p then (p, data) else e) with
    | none =>
      have hnone := List.find?_eq_none.mp hfind e he
      simp [of_decide_eq_true hp] at hnone
    | some e =>
      have he : e.1 = p := by
        have hsome := List.find?_some hfind
        by_cases he : e.1 = p
        · exact he
        · simp [he] at hsome
      simp [he]
  · rename_i h
    have hnone : fs.entries.find? (fun e => decide (e.1 = p)) = none :=
      List.find?_eq_none.mpr fun e he hp => h (List.any_eq_true.mpr ⟨e, he, hp⟩)
    simp [get?, hnone]

theorem admits_of_open? {o : Opened} (h : fs.open? p = .ok o) : fs.admits p = true := by
  cases hadmits : fs.admits p with
  | true => rfl
  | false =>
    simp only [open?, hadmits, Bool.not_false, if_true] at h
    cases h

/-- A file that is opened is one of the files. -/
theorem get?_of_open? (h : fs.open? p = .ok (.file data)) : fs.get? p = some data := by
  unfold open? at h
  dsimp only at h
  repeat' split at h
  all_goals cases h
  assumption

/-- Files of which some were written. Those are there with their contents; at other paths everything is as
it was, and every directory is one that was there before. -/
structure Wrote (fs fs' : Files) (new : List (Text × Text)) : Prop where
  tree : fs'.IsTree
  onDisk : fs'.onDisk = fs.onDisk
  mem_paths : ∀ p, p ∈ fs'.paths ↔ p ∈ fs.paths ∨ p ∈ new.map (·.1)
  written : ∀ f ∈ new, fs'.open? f.1 = .ok (.file f.2)
  kept : ∀ p, p ∉ new.map (·.1) → fs'.get? p = fs.get? p
  isDirectory : ∀ p, fs'.isDirectory p = fs.isDirectory p

namespace Wrote

theorem refl (h : fs.IsTree) : fs.Wrote fs [] where
  tree := h
  onDisk := rfl
  mem_paths := by simp
  written := by simp
  kept := fun _ _ => rfl
  isDirectory := fun _ => rfl

theorem admits (h : fs.Wrote fs' new) (p : Text) : fs'.admits p = fs.admits p := by
  rw [Files.admits, h.onDisk]
  rfl

/-- What is opened at another path is what was opened there, and is refused where it was refused. -/
theorem open?_ok (h : fs.Wrote fs' new) (hp : p ∉ new.map (·.1)) {o : Opened} :
    fs'.open? p = .ok o ↔ fs.open? p = .ok o := by
  simp only [Files.open?, h.admits, h.kept p hp, h.isDirectory]
  split
  · simp
  split
  · rfl
  split
  · rfl
  split <;> simp

theorem read_ok (h : fs.Wrote fs' new) (hp : p ∉ new.map (·.1)) :
    fs'.read p = .ok data ↔ fs.read p = .ok data := by
  simp only [Files.read, h.onDisk, h.admits]
  split
  · simp
  cases hopen : fs.open? p with
  | ok o => rw [(h.open?_ok hp).mpr hopen]
  | error e =>
    cases hopen' : fs'.open? p with
    | ok o => rw [(h.open?_ok hp).mp hopen'] at hopen; cases hopen
    | error e' => simp

theorem read_written (h : fs.Wrote fs' new) {f : Text × Text} (hf : f ∈ new) : fs'.read f.1 = .ok f.2 := by
  have hopen := h.written f hf
  simp [Files.read, admits_of_open? hopen, hopen]

/-- A path that leads neither to a new file nor through one is opened as before. -/
theorem open?_eq (h : fs.Wrote fs' new)
    (hp : ∀ f ∈ new, f.1 ≠ p ∧ Text.startsWith (f.1 ++ [slash]) p = false) : fs'.open? p = fs.open? p := by
  have hnew : p ∉ new.map (·.1) := by
    intro hmem
    obtain ⟨f, hf, hfp⟩ := List.mem_map.mp hmem
    exact (hp f hf).1 hfp
  have hthrough : fs'.throughFile p = fs.throughFile p := by
    have hpaths (fs : Files) : fs.throughFile p = fs.paths.any fun q => Text.startsWith (q ++ [slash]) p := by
      rw [throughFile, paths, List.any_map]
      rfl
    rw [hpaths, hpaths, Bool.eq_iff_iff, List.any_eq_true, List.any_eq_true]
    constructor
    · rintro ⟨q, hq, hstarts⟩
      rcases (h.mem_paths q).mp hq with hq | hq
      · exact ⟨q, hq, hstarts⟩
      · obtain ⟨f, hf, rfl⟩ := List.mem_map.mp hq
        rw [(hp f hf).2] at hstarts
        cases hstarts
    · rintro ⟨q, hq, hstarts⟩
      exact ⟨q, (h.mem_paths q).mpr (.inl hq), hstarts⟩
  have habsence : fs'.absence p = fs.absence p := by
    rw [absence, absence, h.onDisk, h.admits, hthrough]
  simp only [Files.open?, h.admits, h.kept p hnew, h.isDirectory, habsence]

theorem trans (h : fs.Wrote fs' new) (h' : fs'.Wrote fs'' new')
    (hapart : ∀ f ∈ new, f.1 ∉ new'.map (·.1)) : fs.Wrote fs'' (new ++ new') where
  tree := h'.tree
  onDisk := h'.onDisk.trans h.onDisk
  mem_paths := by
    intro p
    rw [h'.mem_paths, h.mem_paths, List.map_append, List.mem_append, or_assoc]
  written := by
    intro f hf
    rcases List.mem_append.mp hf with hf | hf
    · exact (h'.open?_ok (hapart f hf)).mpr (h.written f hf)
    · exact h'.written f hf
  kept := by
    intro p hp
    rw [List.map_append, List.mem_append, not_or] at hp
    rw [h'.kept p hp.2, h.kept p hp.1]
  isDirectory := fun p => (h'.isDirectory p).trans (h.isDirectory p)

/-- A file that is there with its content already counts as written. -/
theorem of_open (h : fs.IsTree) (hopen : fs.open? p = .ok (.file data)) : fs.Wrote fs [(p, data)] where
  tree := h
  onDisk := rfl
  mem_paths := by
    intro q
    have hp : p ∈ fs.paths := mem_paths_of_get? (by rw [get?_of_open? hopen]; rfl)
    simp only [List.map_cons, List.map_nil, List.mem_singleton]
    exact ⟨.inl, fun h => h.elim id fun hq => hq ▸ hp⟩
  written := by
    intro f hf
    rw [List.mem_singleton.mp hf]
    exact hopen
  kept := fun _ _ => rfl
  isDirectory := fun _ => rfl

end Wrote

/-! ## One file -/

theorem IsTree.congr (h : fs.IsTree) (hpaths : fs'.paths = fs.paths) : fs'.IsTree :=
  ⟨by rw [hpaths]; exact h.named, by rw [hpaths]; exact h.distinct, by rw [hpaths]; exact h.apart⟩

theorem outputPath_ne_here (t : Text) : outputPath t ≠ here := by
  intro h
  have hlong := congrArg List.length h
  have hshort : here.length = 1 := by decide
  have hthree : generatedExtension.length = 3 := by decide
  rw [outputPath, List.length_append] at hlong
  omega

section Put
variable {t : Text} (htree : fs.IsTree) (ht : t ∈ fs.paths)
include ht

/-- A generated file adds no directory. -/
theorem isDirectory_put_output (data p : Text) :
    (fs.put (outputPath t) data).isDirectory p = fs.isDirectory p := by
  rw [isDirectory_eq, isDirectory_eq, paths_put]
  split
  · rfl
  · congr 1
    rw [List.any_append, Bool.eq_iff_iff, Bool.or_eq_true]
    refine ⟨fun h => h.elim id fun hstarts => ?_, .inl⟩
    have hbeside : Text.startsWith (p ++ [slash]) (outputPath t) = true := by simpa using hstarts
    exact List.any_eq_true.mpr ⟨t, ht, startsWith_of_outputPath hbeside⟩

include htree

/-- The files stay a tree, if there is a file or nothing at the path that is written. -/
theorem isTree_put_output (hfile : isFilePath (outputPath t) = true)
    (hplace : outputPath t ∈ fs.paths ∨ fs.isDirectory (outputPath t) = false) (data : Text) :
    (fs.put (outputPath t) data).IsTree := by
  by_cases hmem : outputPath t ∈ fs.paths
  · exact htree.congr (by rw [paths_put, if_pos hmem])
  have hpaths : (fs.put (outputPath t) data).paths = fs.paths ++ [outputPath t] := by
    rw [paths_put, if_neg hmem]
  have hnothing : ∀ q ∈ fs.paths, Text.startsWith (outputPath t ++ [slash]) q = false := by
    intro q hq
    have hdir := hplace.resolve_left hmem
    rw [isDirectory_eq, Bool.or_eq_false_iff] at hdir
    exact Bool.eq_false_of_not_eq_true fun hstarts => by
      rw [List.any_eq_true.mpr ⟨q, hq, hstarts⟩] at hdir
      cases hdir.2
  refine ⟨?_, ?_, ?_⟩
  · intro p hp
    rw [hpaths] at hp
    rcases List.mem_append.mp hp with hp | hp
    · exact htree.named p hp
    · exact List.mem_singleton.mp hp ▸ hfile
  · rw [hpaths, List.nodup_append]
    refine ⟨htree.distinct, List.nodup_singleton _, ?_⟩
    rintro p hp q hq rfl
    exact hmem (List.mem_singleton.mp hq ▸ hp)
  · intro p hp q hq
    rw [hpaths] at hp hq
    -- what leads to the new file leads to its template
    by_contra hstarts
    rw [Bool.not_eq_false] at hstarts
    have hold : ∃ r ∈ fs.paths, Text.startsWith (p ++ [slash]) r = true := by
      rcases List.mem_append.mp hq with hq | hq
      · exact ⟨q, hq, hstarts⟩
      · rw [List.mem_singleton.mp hq] at hstarts
        exact ⟨t, ht, startsWith_of_outputPath hstarts⟩
    obtain ⟨r, hr, hstarts⟩ := hold
    rcases List.mem_append.mp hp with hp | hp
    · rw [htree.apart p hp r hr] at hstarts
      cases hstarts
    · rw [List.mem_singleton.mp hp, hnothing r hr] at hstarts
      cases hstarts

/-- A generated file is written beside its template. -/
theorem wrote_put_output (hadmits : fs.admits (outputPath t) = true)
    (hplace : outputPath t ∈ fs.paths ∨ fs.isDirectory (outputPath t) = false) (data : Text) :
    fs.Wrote (fs.put (outputPath t) data) [(outputPath t, data)] where
  tree := isTree_put_output htree ht (Bool.and_eq_true_iff.mp hadmits).1 hplace data
  onDisk := onDisk_put
  mem_paths := by
    intro p
    rw [paths_put]
    split
    · rename_i hmem
      refine ⟨.inl, fun h => h.elim id fun hp => ?_⟩
      have hp : p = outputPath t := by simpa using hp
      exact hp ▸ hmem
    · simp
  written := by
    intro f hf
    rw [List.mem_singleton.mp hf]
    simp [open?, admits_put, hadmits, outputPath_ne_here, get?_put]
  kept := by
    intro p hp
    exact get?_put_of_ne (by simpa using hp)
  isDirectory := isDirectory_put_output ht data

end Put

/-! ## The files below a directory -/

theorem onDisk_below (fs : Files) (dir : Text) : (fs.below dir).onDisk = fs.onDisk := by
  unfold below
  split <;> rfl

section Below
variable {place : List Text} (hplace : Below place)
include hplace

theorem paths_below (fs : Files) :
    (fs.below (written place)).paths = fs.paths.filterMap (Text.strip? (lead place)) := by
  by_cases hroot : place = []
  · have hstrip : Text.strip? ([] : Text) = some := by
      funext p
      cases p <;> rfl
    rw [below, if_pos ((written_eq_here hplace).mpr hroot), lead, if_pos hroot, hstrip, List.filterMap_some]
  · rw [below, if_neg fun h => hroot ((written_eq_here hplace).mp h), lead, if_neg hroot,
      written_eq_ofElements hroot, paths, paths, List.filterMap_map, List.map_filterMap]
    refine List.filterMap_congr fun e _ => ?_
    rw [Function.comp_apply, Option.map_map]
    exact Option.map_id'

theorem mem_paths_below {p : Text} : p ∈ (fs.below (written place)).paths ↔ lead place ++ p ∈ fs.paths := by
  rw [paths_below hplace, List.mem_filterMap]
  constructor
  · rintro ⟨q, hq, hstrip⟩
    exact Text.eq_append_of_strip? hstrip ▸ hq
  · intro hp
    exact ⟨_, hp, Text.strip?_append _ _⟩

theorem get?_below (fs : Files) (p : Text) :
    (fs.below (written place)).get? p = fs.get? (lead place ++ p) := by
  by_cases hroot : place = []
  · rw [below, if_pos ((written_eq_here hplace).mpr hroot), lead, if_pos hroot]
    rfl
  rw [below, if_neg fun h => hroot ((written_eq_here hplace).mp h), lead, if_neg hroot,
    written_eq_ofElements hroot]
  generalize ofElements place ++ [slash] = front
  simp only [get?]
  induction fs.entries with
  | nil => rfl
  | cons e es ih =>
    cases hstrip : Text.strip? front e.1 with
    | none =>
      have hne : e.1 ≠ front ++ p := by
        intro he
        rw [he, Text.strip?_append] at hstrip
        cases hstrip
      rw [List.filterMap_cons_none (by rw [hstrip]; rfl), List.find?_cons_of_neg (by simpa using hne)]
      exact ih
    | some r =>
      have he : e.1 = front ++ r := Text.eq_append_of_strip? hstrip
      have hfirst : (Text.strip? front e.1).map (·, e.2) = some (r, e.2) := by rw [hstrip]; rfl
      rw [List.filterMap_cons_some (f := fun e : Text × Text => (Text.strip? front e.1).map (·, e.2)) hfirst]
      by_cases hr : r = p
      · rw [List.find?_cons_of_pos (by simp [hr]), List.find?_cons_of_pos (by simp [he, hr])]
        rfl
      · rw [List.find?_cons_of_neg (by simp [hr]), List.find?_cons_of_neg (by simp [he, hr])]
        exact ih

/-- A path goes on below the directory as in its own files. -/
theorem elements_lead_append (p : Text) : elements (lead place ++ p) = place ++ elements p := by
  unfold lead
  split
  · rename_i hroot
    rw [hroot]
    rfl
  · rename_i hroot
    rw [List.append_assoc, List.singleton_append, elements_append, elements_ofElements hroot hplace.undivided]

theorem lead_append_ne_here {p : Text} (hp : p ≠ here) : lead place ++ p ≠ here := by
  intro h
  have hsingle : elements here = [here] := by decide
  have helements := elements_lead_append hplace p
  rw [h, hsingle] at helements
  cases place with
  | nil => exact hp (by simpa [lead] using h)
  | cons e es =>
    obtain ⟨hhere, -⟩ := List.cons.inj helements
    exact (hplace e List.mem_cons_self).notHere hhere.symm

theorem isFilePath_of_lead {p : Text} (h : isFilePath (lead place ++ p) = true) : isFilePath p = true := by
  by_cases hp : p = here
  · rw [hp]
    decide
  have hbelow := below_elements h (lead_append_ne_here hplace hp)
  rw [elements_lead_append hplace] at hbelow
  have hclosed : Text.Closed (lead place) := by
    unfold lead
    split
    · exact .nil
    · exact .of_ascii (by decide) _
  have hvalid : Text.isValid (lead place ++ p) = true := (Bool.and_eq_true_iff.mp h).1
  rw [hclosed.isValid_append, Bool.and_eq_true_iff] at hvalid
  exact isFilePath_of_below hvalid.2 fun e he => hbelow e (List.mem_append_right place he)

theorem IsTree.below (h : fs.IsTree) : (fs.below (written place)).IsTree := by
  refine ⟨fun p hp => ?_, ?_, fun p hp q hq => ?_⟩
  · exact isFilePath_of_lead hplace (h.named _ ((mem_paths_below hplace).mp hp))
  · rw [paths_below hplace]
    refine h.distinct.filterMap fun p q r hp hq => ?_
    rw [Text.eq_append_of_strip? hp, Text.eq_append_of_strip? hq]
  · have hapart := h.apart _ ((mem_paths_below hplace).mp hp) _ ((mem_paths_below hplace).mp hq)
    by_contra hstarts
    rw [Bool.not_eq_false, startsWith_iff] at hstarts
    obtain ⟨r, hr⟩ := hstarts
    have hlonger : Text.startsWith (lead place ++ p ++ [slash]) (lead place ++ q) = true :=
      startsWith_iff.mpr ⟨r, by rw [hr]; simp⟩
    rw [hlonger] at hapart
    cases hapart

theorem isDirectory_below (fs : Files) {p : Text} (hp : p ≠ here) :
    (fs.below (written place)).isDirectory p = fs.isDirectory (lead place ++ p) := by
  have hany : (fs.below (written place)).paths.any (Text.startsWith (p ++ [slash])) = true ↔
      fs.paths.any (Text.startsWith (lead place ++ p ++ [slash])) = true := by
    simp only [List.any_eq_true, startsWith_iff]
    constructor
    · rintro ⟨q, hq, r, hr⟩
      exact ⟨_, (mem_paths_below hplace).mp hq, r, by rw [hr]; simp⟩
    · rintro ⟨q, hq, r, hr⟩
      have hq' : q = lead place ++ (p ++ [slash] ++ r) := by rw [hr]; simp
      exact ⟨_, (mem_paths_below hplace).mpr (hq' ▸ hq), r, rfl⟩
  rw [isDirectory_eq, isDirectory_eq, Bool.eq_iff_iff.mpr hany]
  simp [hp, lead_append_ne_here hplace hp]

theorem open?_below {p : Text} (hp : p ≠ here) (h : fs.open? (lead place ++ p) = .ok (.file data)) :
    (fs.below (written place)).open? p = .ok (.file data) := by
  obtain ⟨hfile, hzero⟩ := Bool.and_eq_true_iff.mp (admits_of_open? h)
  have hbelow : (fs.below (written place)).admits p = true := by
    rw [admits, isFilePath_of_lead hplace hfile, onDisk_below]
    simp only [List.contains_eq_mem, List.mem_append] at hzero ⊢
    by_cases hp : 0 ∈ p
    · simpa [hp] using hzero
    · simp [hp]
  simp [open?, hbelow, hp, get?_below hplace, get?_of_open? h]

/-- What is written in a tree is written in the files below one of its directories. -/
theorem wrote_below (h : fs.Wrote fs' (new.map fun f => (lead place ++ f.1, f.2)))
    (hnew : ∀ f ∈ new, f.1 ≠ here) : (fs.below (written place)).Wrote (fs'.below (written place)) new := by
  have hmem (p : Text) : lead place ++ p ∈ (new.map fun f => (lead place ++ f.1, f.2)).map (·.1) ↔
      p ∈ new.map (·.1) := by
    simp [List.append_cancel_left_eq]
  refine ⟨h.tree.below hplace, ?_, fun p => ?_, fun f hf => ?_, fun p hp => ?_, fun p => ?_⟩
  · rw [onDisk_below, onDisk_below, h.onDisk]
  · rw [mem_paths_below hplace, h.mem_paths, mem_paths_below hplace, hmem]
  · exact open?_below hplace (hnew f hf) (h.written _ (List.mem_map_of_mem hf))
  · rw [get?_below hplace, get?_below hplace, h.kept _ fun hp' => hp ((hmem p).mp hp')]
  · by_cases hp : p = here
    · simp [isDirectory_eq, hp]
    · rw [isDirectory_below hplace _ hp, isDirectory_below hplace _ hp, h.isDirectory]

end Below
end Files

/-! ## The templates of a site -/

namespace Site
variable {s : Site} {ps : List Text}

theorem templates_eq (hfiles : s.files.IsTree) :
    ∃ found : List Text,
      s.templates = .ok (Text.sort (found.filter fun p => Text.endsWith s.config.extension (base p))) ∧
      found.Nodup ∧ ∀ p, p ∈ found ↔ p ∈ s.files.paths ∧ ∀ e ∈ elements p, Files.isPassedOver e = false := by
  have hdeep : ∀ p ∈ s.files.paths, ∀ rest, elements p = [] ++ rest → rest.length ≤ s.files.depthBound := by
    intro p hp rest hrest
    have hlength := Files.length_elements_le_depthBound hp
    rwa [hrest, List.nil_append] at hlength
  obtain ⟨found, hwalk, hnodup, hmem⟩ := Files.walk_found hfiles Below.nil hdeep
  have hroot : s.files.walk s.files.depthBound here = .ok found := hwalk
  exact ⟨found, by unfold templates; rw [hroot]; rfl, hnodup, fun p => (hmem p).trans Files.finds_root⟩

theorem templates_nodup (hfiles : s.files.IsTree) (h : s.templates = .ok ps) : ps.Nodup := by
  obtain ⟨found, htemplates, hnodup, -⟩ := templates_eq hfiles
  rw [h] at htemplates
  cases htemplates
  exact (Text.sort_perm _).nodup_iff.mpr (hnodup.filter _)

theorem endsWith_base_of_mem {fs : Files} {ext p : Text} (hfiles : fs.IsTree)
    (hext : Config.isExtension ext = true) (hp : p ∈ fs.paths) :
    Text.endsWith ext (base p) = Text.endsWith ext p := by
  have hslash : slash ∉ ext := by
    simp only [Config.isExtension, Bool.and_eq_true] at hext
    simpa [slash] using hext.1.2
  have hsplit := (List.dropLast_append_getLast (elements_ne_nil p)).symm
  exact endsWith_base hslash (hfiles.nonempty hp _ (List.getLast_mem _)) hsplit

/-- A template is a file with the extension, and not the root. -/
theorem mem_templates (hfiles : s.files.IsTree) (hext : Config.isExtension s.config.extension = true)
    (h : s.templates = .ok ps) {p : Text} (hp : p ∈ ps) :
    p ∈ s.files.paths ∧ Text.endsWith s.config.extension p = true ∧ p ≠ here := by
  obtain ⟨found, htemplates, -, hmem⟩ := templates_eq hfiles
  rw [h] at htemplates
  cases htemplates
  obtain ⟨hfound, hends⟩ := List.mem_filter.mp ((Text.sort_perm _).mem_iff.mp hp)
  obtain ⟨hpath, hseen⟩ := (hmem p).mp hfound
  rw [endsWith_base_of_mem hfiles hext hpath] at hends
  refine ⟨hpath, hends, ?_⟩
  rintro rfl
  exact absurd (hseen here (by decide)) (by decide)

/-- Files that do not have the extension add no template. -/
theorem templates_wrote {fs : Files} {new : List (Text × Text)} (hfiles : s.files.IsTree)
    (hext : Config.isExtension s.config.extension = true) (h : s.files.Wrote fs new)
    (hnew : ∀ f ∈ new, Text.endsWith s.config.extension f.1 = false) :
    ({ s with files := fs } : Site).templates = s.templates := by
  obtain ⟨found, htemplates, hnodup, hmem⟩ := templates_eq hfiles
  obtain ⟨found', htemplates', hnodup', hmem'⟩ := templates_eq (s := { s with files := fs }) h.tree
  rw [htemplates, htemplates']
  have hperm : (found'.filter fun p => Text.endsWith s.config.extension (base p)).Perm
      (found.filter fun p => Text.endsWith s.config.extension (base p)) := by
    refine (List.perm_ext_iff_of_nodup (hnodup'.filter _) (hnodup.filter _)).mpr fun p => ?_
    rw [List.mem_filter, List.mem_filter, hmem, hmem', h.mem_paths]
    constructor
    · rintro ⟨⟨hp | hp, hseen⟩, hends⟩
      · exact ⟨⟨hp, hseen⟩, hends⟩
      · obtain ⟨f, hf, rfl⟩ := List.mem_map.mp hp
        rw [endsWith_base_of_mem h.tree hext ((h.mem_paths _).mpr (.inr hp)), hnew f hf] at hends
        cases hends
    · rintro ⟨⟨hp, hseen⟩, hends⟩
      exact ⟨⟨.inl hp, hseen⟩, hends⟩
  have hsorts := ((Text.sort_perm _).trans hperm).trans (Text.sort_perm _).symm
  exact congrArg Except.ok (hsorts.eq_of_pairwise (fun _ _ _ _ => Text.le_antisymm)
    (List.pairwise_mergeSort Text.le_trans Text.le_total _)
    (List.pairwise_mergeSort Text.le_trans Text.le_total _))

end Site
end Atmark
