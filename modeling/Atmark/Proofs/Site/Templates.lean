import Mathlib.Data.List.Nodup
import Atmark.Proofs.Path.Walk
import Atmark.Proofs.Site.Order
import Atmark.Proofs.Token.Positions

/-!
Which templates a site has. Directories are written down nowhere: a directory is whatever the path of a
file goes through, and its entries are found by cutting the paths below it at their next slash. The walk
through all directories is described by the elements of the paths alone: from a directory it finds the
files whose paths go on from there with elements none of which is passed over (`Files.walk_found`).
-/
namespace Atmark
open Path

/-! ## Texts cut once -/

namespace Text

theorem cut?_undivided {sep : UInt8} {t : Text} (h : sep ∉ t) : cut? sep t = none := by
  induction t with
  | nil => rfl
  | cons b t ih =>
    have hb : b ≠ sep := fun he => h (by simp [he])
    simp [cut?, hb, ih (fun hm => h (by simp [hm]))]

theorem cut?_append {sep : UInt8} {t : Text} (h : sep ∉ t) (r : Text) :
    cut? sep (t ++ sep :: r) = some (t, r) := by
  induction t with
  | nil => simp [cut?]
  | cons b t ih =>
    have hb : b ≠ sep := fun he => h (by simp [he])
    simp [cut?, hb, ih (fun hm => h (by simp [hm]))]

theorem endsWith_iff {p t : Text} : endsWith p t = true ↔ p <:+ t := by
  rw [endsWith, startsWith_iff, ← List.reverse_prefix]
  exact ⟨fun ⟨r, h⟩ => ⟨r, h.symm⟩, fun ⟨r, h⟩ => ⟨r, h.symm⟩⟩

theorem sort_perm (ts : List Text) : (sort ts).Perm ts := List.mergeSort_perm ts le

/-- Texts that are all different are in strict order once they are sorted. -/
theorem sort_strict {ts : List Text} (h : ts.Nodup) : (sort ts).Pairwise fun s t => lt s t = true := by
  have hsorted : (sort ts).Pairwise fun s t => le s t = true :=
    List.pairwise_mergeSort le_trans le_total ts
  have hdiff : (sort ts).Pairwise fun s t => s ≠ t := (sort_perm ts).nodup_iff.mpr h
  refine (hsorted.and hdiff).imp fun {s t} ⟨hle, hne⟩ => ?_
  by_contra hlt
  have hge : le t s = true := by rw [le, Bool.not_eq_true']; exact Bool.not_eq_true _ ▸ hlt
  exact hne (le_antisymm hle hge)

end Text

/-! ## Paths by their elements -/

namespace Path

/-- The path with some elements. -/
def ofElements (es : List Text) : Text := Text.intercalate [slash] es

theorem elements_ofElements {es : List Text} (hne : es ≠ []) (h : ∀ e ∈ es, slash ∉ e) :
    elements (ofElements es) = es := elements_joined hne h

theorem ofElements_elements (p : Text) : ofElements (elements p) = p := joined_elements p

theorem elements_ne_nil (p : Text) : elements p ≠ [] := by
  rw [elements, splitOn_eq]
  exact List.splitOn_ne_nil slash p

theorem elements_injective {p q : Text} (h : elements p = elements q) : p = q := by
  rw [← ofElements_elements p, h, ofElements_elements]

theorem ofElements_cons_cons (e f : Text) (es : List Text) :
    ofElements (e :: f :: es) = e ++ slash :: ofElements (f :: es) := by
  simp [ofElements, Text.intercalate]

/-- What the path of an entry of a directory begins with. -/
def lead (dir : List Text) : Text := if dir = [] then [] else ofElements dir ++ [slash]

theorem ofElements_append (dir : List Text) (e : Text) (es : List Text) :
    ofElements (dir ++ e :: es) = lead dir ++ ofElements (e :: es) := by
  induction dir with
  | nil => rfl
  | cons d dir ih =>
    cases dir with
    | nil => simp [lead, ofElements, Text.intercalate]
    | cons d' dir =>
      have hd : ofElements (d :: d' :: (dir ++ e :: es)) =
          d ++ slash :: (lead (d' :: dir) ++ ofElements (e :: es)) := by
        rw [ofElements_cons_cons, ← List.cons_append, ih]
      simpa [lead, ofElements_cons_cons] using hd

theorem written_eq_ofElements {dir : List Text} (h : dir ≠ []) : written dir = ofElements dir := if_neg h

/-- Only the root is written as it is. -/
theorem written_eq_here {dir : List Text} (hd : Below dir) : written dir = here ↔ dir = [] := by
  refine ⟨fun h => ?_, fun h => if_pos h⟩
  by_contra hne
  have he : elements here = dir := by rw [← h, elements_written hd, if_neg hne]
  exact (hd here (by rw [← he]; decide)).notHere rfl

/-- The last element of a path that has further ones. -/
theorem base_ofElements (dir : List Text) {e : Text} (hne : e ≠ []) (he : slash ∉ e) :
    base (ofElements (dir ++ [e])) = e := by
  have hlast : ∀ b ∈ e.reverse, (b != slash) = true := by
    intro b hb
    have : b ≠ slash := fun h => he (h ▸ List.mem_reverse.1 hb)
    simpa using this
  obtain ⟨b, bs, hb⟩ := List.exists_cons_of_ne_nil (List.reverse_ne_nil_iff.mpr hne)
  have htrim (pre : Text) : (e.reverse ++ pre).dropWhile (· == slash) = e.reverse ++ pre := by
    have : (b == slash) = false := by simpa using hlast b (by simp [hb])
    simp [hb, this]
  have hlead : (lead dir).reverse.takeWhile (· != slash) = [] := by
    unfold lead
    split <;> simp
  rw [ofElements_append]
  have hpath : (lead dir ++ ofElements [e]) = lead dir ++ e := rfl
  rw [hpath, base, List.reverse_append, htrim]
  have h1 : (lead dir ++ e).isEmpty = false := by simp [hne]
  have h2 : (e.reverse ++ (lead dir).reverse).isEmpty = false := by simp [hne]
  simp only [h1, h2, Bool.false_eq_true, if_false]
  rw [List.takeWhile_append_of_pos hlast, hlead, List.append_nil, List.reverse_reverse]

/-- An extension is one of the last element. -/
theorem endsWith_base {ext p : Text} (hext : slash ∉ ext) {dir : List Text} {e : Text} (hne : e ≠ [])
    (hp : elements p = dir ++ [e]) : Text.endsWith ext (base p) = Text.endsWith ext p := by
  have he : slash ∉ e := undivided_of_mem_elements (p := p) (by simp [hp])
  have hpath : p = lead dir ++ e := by rw [← ofElements_elements p, hp, ofElements_append]; rfl
  have hbase : base p = e := by rw [← ofElements_elements p, hp, base_ofElements dir hne he]
  rw [hbase, Bool.eq_iff_iff, Text.endsWith_iff, Text.endsWith_iff, hpath]
  refine ⟨fun h => h.trans (List.suffix_append _ _), fun h => ?_⟩
  unfold lead at h
  split at h
  · simpa using h
  · -- a suffix without a slash cannot go beyond the last one
    rw [List.append_assoc, List.singleton_append] at h
    rcases List.suffix_or_suffix_of_suffix h (List.suffix_append _ (slash :: e)) with h | h
    · rcases List.suffix_cons_iff.mp h with h | h
      · exact absurd (h ▸ List.mem_cons_self) hext
      · exact h
    · exact absurd (h.subset List.mem_cons_self) hext

theorem length_elements (p : Text) : (elements p).length ≤ p.length + 1 := by
  unfold elements
  induction p with
  | nil => simp [Text.splitOn]
  | cons b p ih =>
    rw [Text.splitOn]
    split
    · simpa using ih
    · cases h : Text.splitOn slash p with
      | nil => simp
      | cons t ts =>
        rw [h] at ih
        simp only [List.length_cons] at ih ⊢
        omega

/-- A path to a file has no empty element, and the last two of the special ones only by itself. -/
theorem nonempty_of_isFilePath {p : Text} (h : isFilePath p = true) : ∀ e ∈ elements p, e ≠ [] := by
  intro e he
  have hp := (Bool.and_eq_true_iff.1 h).2
  by_cases hh : p = here
  · have hsingle : elements here = [here] := by decide
    rw [hh, hsingle, List.mem_singleton] at he
    rw [he]
    decide
  · have hall : ∀ e ∈ elements p, e ≠ [] ∧ e ≠ here ∧ e ≠ parent := by
      simpa [hh, and_assoc] using hp
    exact (hall e he).1

end Path

/-! ## Directories -/

namespace Files

/-- The paths of the files. -/
def paths (fs : Files) : List Text := fs.entries.map (·.1)

/-- Files that can lie in one file system: their paths are of files and differ, and no file stands where
the path of another needs a directory. -/
structure IsTree (fs : Files) : Prop where
  named : ∀ p ∈ fs.paths, isFilePath p = true
  distinct : fs.paths.Nodup
  apart : ∀ p ∈ fs.paths, ∀ q ∈ fs.paths, Text.startsWith (p ++ [slash]) q = false

variable {fs : Files} {dir : List Text}

theorem IsTree.nonempty (hfs : fs.IsTree) {p : Text} (hp : p ∈ fs.paths) : ∀ e ∈ elements p, e ≠ [] :=
  nonempty_of_isFilePath (hfs.named p hp)

theorem elements_entry {p e : Text} {rest : List Text} (hp : elements p = dir ++ e :: rest) :
    elements (ofElements (dir ++ [e])) = dir ++ [e] := by
  refine elements_ofElements (by simp) fun f hf => undivided_of_mem_elements (p := p) ?_
  rw [hp]
  simp only [List.mem_append, List.mem_cons, List.not_mem_nil, or_false] at hf ⊢
  tauto

/-- The name of an entry is the next element. -/
theorem IsTree.base_entry (hfs : fs.IsTree) {p e : Text} {rest : List Text} (hp : p ∈ fs.paths)
    (he : elements p = dir ++ e :: rest) : base (ofElements (dir ++ [e])) = e :=
  base_ofElements dir (hfs.nonempty hp e (by simp [he]))
    (undivided_of_mem_elements (p := p) (by simp [he]))

/-- The next element after a directory tells of a file whether it is an entry or lies below one. -/
theorem IsTree.same_entry (hfs : fs.IsTree) {p q : Text} (hp : p ∈ fs.paths) (hq : q ∈ fs.paths)
    {e : Text} {rest : List Text} (hpe : elements p = dir ++ [e])
    (hqe : elements q = dir ++ e :: rest) : rest = [] := by
  cases rest with
  | nil => rfl
  | cons f rest =>
    have hcut : q = p ++ [slash] ++ ofElements (f :: rest) := by
      have hsplit : dir ++ e :: f :: rest = (dir ++ [e]) ++ f :: rest := by simp
      have hne : dir ++ [e] ≠ [] := by simp
      rw [← ofElements_elements q, hqe, hsplit, ofElements_append, lead, if_neg hne, ← hpe,
        ofElements_elements]
    have hstarts : Text.startsWith (p ++ [slash]) q = true := startsWith_iff.mpr ⟨_, hcut⟩
    rw [hfs.apart p hp q hq] at hstarts
    cases hstarts

/-- The entry of a directory under which a path is listed is the next element of the path. -/
theorem entryOf?_of_elements {p e : Text} {rest : List Text} (he : e ≠ [])
    (hp : elements p = dir ++ e :: rest) :
    entryOf? (lead dir) p = some (ofElements (dir ++ [e]), !rest.isEmpty) := by
  have hdiv : slash ∉ e := undivided_of_mem_elements (p := p) (by simp [hp])
  have hpath : p = lead dir ++ ofElements (e :: rest) := by
    rw [← ofElements_elements p, hp, ofElements_append]
  have hentry : ofElements (dir ++ [e]) = lead dir ++ e := ofElements_append dir e []
  have hstrip : Text.strip? (lead dir) p = some (ofElements (e :: rest)) := by
    rw [hpath, Text.strip?_append]
  rw [entryOf?, hstrip, Option.map_some, hentry]
  cases rest with
  | nil =>
    have hcut : Text.cut? slash (ofElements [e]) = none := Text.cut?_undivided hdiv
    simp only [hcut]
    rw [hpath]
    rfl
  | cons f rest =>
    obtain ⟨b, name, rfl⟩ := List.exists_cons_of_ne_nil he
    rw [ofElements_cons_cons, Text.cut?_append hdiv]
    rfl

/-- Only the paths that go on from a directory are listed there. -/
theorem elements_of_entryOf? {p : Text} {found : Text × Bool} (hdir : Below dir)
    (h : entryOf? (lead dir) p = some found) : ∃ e rest, elements p = dir ++ e :: rest := by
  obtain ⟨r, hr, -⟩ := Option.map_eq_some_iff.mp h
  have hpath := Text.eq_append_of_strip? hr
  obtain ⟨e, rest, hrest⟩ := List.exists_cons_of_ne_nil (elements_ne_nil r)
  refine ⟨e, rest, ?_⟩
  by_cases hn : dir = []
  · rw [hpath, lead, if_pos hn, hn]
    exact hrest
  · rw [hpath, lead, if_neg hn, List.append_assoc, List.singleton_append, elements_append,
      elements_ofElements hn hdir.undivided, hrest]

/-- The paths of the entries of a directory, each marked if it is a directory, as often as there are files
at it or below. -/
def listed (fs : Files) (dir : List Text) : List (Text × Bool) :=
  fs.paths.filterMap (entryOf? (lead dir))

theorem mem_listed (hfs : fs.IsTree) (hdir : Below dir) {found : Text × Bool} :
    found ∈ fs.listed dir ↔ ∃ p ∈ fs.paths, ∃ e rest, elements p = dir ++ e :: rest ∧
      found = (ofElements (dir ++ [e]), !rest.isEmpty) := by
  refine ⟨fun h => ?_, ?_⟩
  · obtain ⟨p, hp, hentry⟩ := List.mem_filterMap.mp h
    obtain ⟨e, rest, he⟩ := elements_of_entryOf? hdir hentry
    have hne : e ≠ [] := hfs.nonempty hp e (by simp [he])
    rw [entryOf?_of_elements hne he] at hentry
    exact ⟨p, hp, e, rest, he, (Option.some.inj hentry).symm⟩
  · rintro ⟨p, hp, e, rest, he, rfl⟩
    have hne : e ≠ [] := hfs.nonempty hp e (by simp [he])
    exact List.mem_filterMap.mpr ⟨p, hp, entryOf?_of_elements hne he⟩

/-- The directories in a directory. -/
def listedDirectories (fs : Files) (dir : List Text) : List Text :=
  (((fs.listed dir).filter (·.2)).map (·.1)).eraseDups

/-- The files in a directory. -/
def listedFiles (fs : Files) (dir : List Text) : List Text := ((fs.listed dir).filter (!·.2)).map (·.1)

/-- The paths that a directory lists, in no order. -/
def listedPaths (fs : Files) (dir : List Text) : List Text := fs.listedDirectories dir ++ fs.listedFiles dir

theorem mem_listedDirectories (hfs : fs.IsTree) (hdir : Below dir) {path : Text} :
    path ∈ fs.listedDirectories dir ↔ ∃ p ∈ fs.paths, ∃ e rest, elements p = dir ++ e :: rest ∧
      rest ≠ [] ∧ path = ofElements (dir ++ [e]) := by
  have hflag : path ∈ fs.listedDirectories dir ↔ (path, true) ∈ fs.listed dir := by
    simp [listedDirectories, List.mem_eraseDups]
  rw [hflag, mem_listed hfs hdir]
  simp only [Prod.mk.injEq, Bool.true_eq, Bool.not_eq_true', List.isEmpty_eq_false_iff]
  exact ⟨fun ⟨p, hp, e, rest, he, hpath, hrest⟩ => ⟨p, hp, e, rest, he, hrest, hpath⟩,
    fun ⟨p, hp, e, rest, he, hrest, hpath⟩ => ⟨p, hp, e, rest, he, hpath, hrest⟩⟩

theorem mem_listedFiles (hfs : fs.IsTree) (hdir : Below dir) {path : Text} :
    path ∈ fs.listedFiles dir ↔ path ∈ fs.paths ∧ ∃ e, elements path = dir ++ [e] := by
  have hflag : path ∈ fs.listedFiles dir ↔ (path, false) ∈ fs.listed dir := by simp [listedFiles]
  rw [hflag, mem_listed hfs hdir]
  constructor
  · rintro ⟨p, hp, e, rest, he, hfound⟩
    obtain ⟨hpath, hrest⟩ := Prod.mk.inj hfound
    have hrest : rest = [] := by simpa using hrest
    rw [hrest] at he
    rw [← he, ofElements_elements] at hpath
    exact hpath ▸ ⟨hp, e, he⟩
  · rintro ⟨hp, e, he⟩
    exact ⟨path, hp, e, [], he, by rw [← he, ofElements_elements]; rfl⟩

theorem mem_listedPaths (hfs : fs.IsTree) (hdir : Below dir) {path : Text} :
    path ∈ fs.listedPaths dir ↔
      ∃ p ∈ fs.paths, ∃ e rest, elements p = dir ++ e :: rest ∧ path = ofElements (dir ++ [e]) := by
  rw [listedPaths, List.mem_append, mem_listedDirectories hfs hdir, mem_listedFiles hfs hdir]
  constructor
  · rintro (⟨p, hp, e, rest, he, -, hpath⟩ | ⟨hp, e, he⟩)
    · exact ⟨p, hp, e, rest, he, hpath⟩
    · exact ⟨path, hp, e, [], he, by rw [← he, ofElements_elements]⟩
  · rintro ⟨p, hp, e, rest, he, rfl⟩
    by_cases hrest : rest = []
    · rw [hrest] at he
      rw [← he, ofElements_elements]
      exact .inr ⟨hp, e, he⟩
    · exact .inl ⟨p, hp, e, rest, he, hrest, rfl⟩

theorem nodup_eraseDups : (ts : List Text) → ts.eraseDups.Nodup
  | [] => by simp
  | t :: ts => by
    rw [List.eraseDups_cons]
    refine List.nodup_cons.mpr ⟨by simp [List.mem_eraseDups], nodup_eraseDups _⟩
  termination_by ts => ts.length
  decreasing_by
    exact Nat.lt_succ_of_le (List.length_filter_le _ ts)

theorem entryOf?_file {lead p path : Text} (h : entryOf? lead p = some (path, false)) : path = p := by
  obtain ⟨r, -, hr⟩ := Option.map_eq_some_iff.mp h
  split at hr <;> simp_all

/-- A file is listed by its own path. -/
theorem listedFiles_sublist : (fs.listedFiles dir).Sublist fs.paths := by
  unfold listedFiles listed
  induction fs.paths with
  | nil => exact List.Sublist.slnil
  | cons p ps ih =>
    rw [List.filterMap_cons]
    cases h : entryOf? (lead dir) p with
    | none => exact ih.cons p
    | some found =>
      obtain ⟨path, flag⟩ := found
      cases flag with
      | true => exact ih.cons p
      | false =>
        obtain rfl := entryOf?_file h
        exact ih.cons_cons path

theorem listedPaths_nodup (hfs : fs.IsTree) (hdir : Below dir) : (fs.listedPaths dir).Nodup := by
  refine List.nodup_append'.mpr ⟨nodup_eraseDups _, hfs.distinct.sublist listedFiles_sublist, ?_⟩
  intro path hd hf
  obtain ⟨q, hq, e, rest, he, hrest, hpath⟩ := (mem_listedDirectories hfs hdir).mp hd
  obtain ⟨hp, e', he'⟩ := (mem_listedFiles hfs hdir).mp hf
  have hsame : elements path = dir ++ [e] := by rw [hpath, elements_entry he]
  exact hrest (hfs.same_entry hp hq hsame he)

/-! ## Listing a directory -/

/-- The entries of a directory are those of the listed paths, in their order. -/
theorem list_written (hdir : Below dir) : fs.list (written dir) =
    (Text.sort (fs.listedPaths dir)).map fun path =>
      ⟨base path, (fs.listedDirectories dir).contains path, ((fs.get? path).getD []).length⟩ := by
  have hlead : (if written dir = here then [] else written dir ++ [slash]) = lead dir := by
    simp only [written_eq_here hdir, lead]
    split
    · rfl
    · rename_i hne
      rw [written_eq_ofElements hne]
  have hlisted : (fs.entries.filterMap fun e => entryOf? (lead dir) e.1) = fs.listed dir := by
    rw [listed, paths, List.filterMap_map]
    rfl
  simp only [list, hlead, hlisted]
  rfl

/-- An entry has the next element of a path as its name, and is a directory exactly if that is not the
last one. -/
theorem mem_list (hfs : fs.IsTree) (hdir : Below dir) {x : Entry} (h : x ∈ fs.list (written dir)) :
    ∃ p ∈ fs.paths, ∃ rest, elements p = dir ++ x.name :: rest ∧ x.isDirectory = !rest.isEmpty := by
  rw [list_written hdir] at h
  obtain ⟨path, hpath, rfl⟩ := List.mem_map.mp h
  have hmem : path ∈ fs.listedPaths dir := (Text.sort_perm _).mem_iff.mp hpath
  by_cases hd : path ∈ fs.listedDirectories dir
  · obtain ⟨p, hp, e, rest, he, hrest, rfl⟩ := (mem_listedDirectories hfs hdir).mp hd
    refine ⟨p, hp, rest, ?_, ?_⟩
    · simpa only [hfs.base_entry hp he] using he
    · simp [hd, hrest]
  · rcases List.mem_append.mp hmem with hd' | hf
    · exact absurd hd' hd
    · obtain ⟨hp, e, he⟩ := (mem_listedFiles hfs hdir).mp hf
      have hpath : ofElements (dir ++ [e]) = path := by rw [← he, ofElements_elements]
      refine ⟨path, hp, [], ?_, ?_⟩
      · simpa only [← hpath, hfs.base_entry hp he] using hpath ▸ he
      · simp [hd]

theorem exists_mem_list (hfs : fs.IsTree) (hdir : Below dir) {p e : Text} {rest : List Text}
    (hp : p ∈ fs.paths) (he : elements p = dir ++ e :: rest) :
    ∃ x ∈ fs.list (written dir), x.name = e := by
  have hmem : ofElements (dir ++ [e]) ∈ Text.sort (fs.listedPaths dir) :=
    (Text.sort_perm _).mem_iff.mpr ((mem_listedPaths hfs hdir).mpr ⟨p, hp, e, rest, he, rfl⟩)
  rw [list_written hdir]
  refine ⟨_, List.mem_map.mpr ⟨_, hmem, rfl⟩, ?_⟩
  exact hfs.base_entry hp he

/-- No name stands twice in a directory. -/
theorem list_names_nodup (hfs : fs.IsTree) (hdir : Below dir) :
    ((fs.list (written dir)).map (·.name)).Nodup := by
  rw [list_written hdir, List.map_map]
  refine List.Nodup.map_on ?_ ((Text.sort_perm _).nodup_iff.mpr (listedPaths_nodup hfs hdir))
  intro path hpath path' hpath' hbase
  obtain ⟨p, hp, e, rest, he, rfl⟩ := (mem_listedPaths hfs hdir).mp ((Text.sort_perm _).mem_iff.mp hpath)
  obtain ⟨q, hq, f, rest', hf, rfl⟩ := (mem_listedPaths hfs hdir).mp ((Text.sort_perm _).mem_iff.mp hpath')
  have hef : e = f := by simpa [hfs.base_entry hp he, hfs.base_entry hq hf] using hbase
  rw [hef]

/-! ## The walk -/

/-- The file is found from a directory: its path goes on from there, by elements that are not passed over. -/
def Finds (fs : Files) (dir : List Text) (p : Text) : Prop :=
  p ∈ fs.paths ∧ ∃ rest, rest ≠ [] ∧ elements p = dir ++ rest ∧ ∀ e ∈ rest, isPassedOver e = false

/-- What the walk finds at an entry of a directory. -/
def visit (fs : Files) (n : Nat) (dir : Text) (x : Entry) : Except FileError (List Text) :=
  if isPassedOver x.name then .ok []
  else if !x.isDirectory then .ok [join dir x.name]
  else if (fs.get? (join dir x.name)).isSome then .error ⟨"readdir", join dir x.name, .unsupported⟩
  else fs.walk n (join dir x.name)

theorem walk_succ (fs : Files) (n : Nat) (dir : Text) :
    fs.walk (n + 1) dir = (do return (← (fs.list dir).mapM (fs.visit n dir)).flatten) := rfl

theorem mapM_ok {α β ε : Type} {f : α → Except ε β} {g : α → β} {xs : List α}
    (h : ∀ x ∈ xs, f x = .ok (g x)) : xs.mapM f = .ok (xs.map g) := by
  induction xs with
  | nil => rfl
  | cons x xs ih =>
    rw [List.mapM_cons, h x List.mem_cons_self, ih fun y hy => h y (List.mem_cons_of_mem x hy)]
    rfl

/-- An element that is not passed over is the name of an entry. -/
theorem IsTree.isEntry (hfs : fs.IsTree) {p e : Text} (hp : p ∈ fs.paths) (he : e ∈ elements p)
    (hseen : isPassedOver e = false) : IsEntry e := by
  refine ⟨hfs.nonempty hp e he, ?_, ?_, undivided_of_mem_elements he⟩
  · rintro rfl
    exact absurd hseen (by decide)
  · rintro rfl
    exact absurd hseen (by decide)

theorem join_entry (hdir : Below dir) {e : Text} (he : IsEntry e) :
    join (written dir) e = written (dir ++ [e]) := by
  refine join_of_walk hdir he.nonempty ?_
  rw [elements_whole he.undivided]
  simp [walk?, step?, he.nonempty, he.notHere, he.notParent]

theorem Below.entry (hdir : Below dir) {e : Text} (he : IsEntry e) : Below (dir ++ [e]) := by
  intro f hf
  rcases List.mem_append.mp hf with hf | hf
  · exact hdir f hf
  · exact List.mem_singleton.mp hf ▸ he

theorem mem_paths_of_get? {path : Text} (h : (fs.get? path).isSome = true) : path ∈ fs.paths := by
  obtain ⟨data, hdata⟩ := Option.isSome_iff_exists.mp h
  obtain ⟨e, he, -⟩ := Option.map_eq_some_iff.mp hdata
  have hpath : e.1 = path := by simpa using List.find?_some he
  exact List.mem_map.mpr ⟨e, List.mem_of_find?_eq_some he, hpath⟩

/-- What is found at an entry, if the walk finds what it should in the directories below. -/
theorem visit_found (hfs : fs.IsTree) (hdir : Below dir) {n : Nat} {x : Entry}
    (hx : x ∈ fs.list (written dir))
    (below : Below (dir ++ [x.name]) → ∃ ps, fs.walk n (written (dir ++ [x.name])) = .ok ps ∧
      ps.Nodup ∧ ∀ p, p ∈ ps ↔ fs.Finds (dir ++ [x.name]) p) :
    ∃ ps, fs.visit n (written dir) x = .ok ps ∧ ps.Nodup ∧
      ∀ p, p ∈ ps ↔ fs.Finds dir p ∧ ∃ rest, elements p = dir ++ x.name :: rest := by
  obtain ⟨q, hq, rest, he, hflag⟩ := mem_list hfs hdir hx
  unfold visit
  cases hseen : isPassedOver x.name with
  | true =>
    refine ⟨[], if_pos rfl, List.nodup_nil, fun p => ⟨fun h => absurd h List.not_mem_nil, ?_⟩⟩
    rintro ⟨⟨-, rest, -, hrest, hall⟩, rest', hrest'⟩
    have hin : x.name ∈ rest := by
      rw [List.append_cancel_left (hrest.symm.trans hrest')]
      exact List.mem_cons_self
    rw [hall _ hin] at hseen
    cases hseen
  | false =>
    have hentry : IsEntry x.name := hfs.isEntry hq (by simp [he]) hseen
    rw [if_neg (by simp), join_entry hdir hentry, hflag]
    have hwritten : written (dir ++ [x.name]) = ofElements (dir ++ [x.name]) :=
      written_eq_ofElements (by simp)
    by_cases hrest : rest = []
    · -- a file: nothing else is listed under its name
      rw [hrest] at he
      have hpath : written (dir ++ [x.name]) = q := by rw [hwritten, ← he, ofElements_elements]
      refine ⟨[q], by simp [hrest, hpath], List.nodup_singleton q, fun p => ?_⟩
      rw [List.mem_singleton]
      constructor
      · rintro rfl
        exact ⟨⟨hq, [x.name], by simp, he, by simpa using hseen⟩, [], he⟩
      · rintro ⟨⟨hp, -⟩, rest', hrest'⟩
        rw [hfs.same_entry hq hp he hrest'] at hrest'
        exact elements_injective (hrest'.trans he.symm)
    · obtain ⟨ps, hwalk, hnodup, hmem⟩ := below (Below.entry hdir hentry)
      have hnofile : (fs.get? (written (dir ++ [x.name]))).isSome = false := by
        by_contra hfile
        have hp := mem_paths_of_get? (Bool.of_not_eq_false hfile)
        exact hrest (hfs.same_entry hp hq (by rw [hwritten, elements_entry he]) he)
      refine ⟨ps, by simp [hrest, hnofile, hwalk], hnodup, fun p => (hmem p).trans ?_⟩
      constructor
      · rintro ⟨hp, rest', hne, hrest', hall⟩
        have hgo : elements p = dir ++ x.name :: rest' := by simpa using hrest'
        refine ⟨⟨hp, x.name :: rest', by simp, hgo, ?_⟩, rest', hgo⟩
        rintro f (- | ⟨-, hf⟩)
        · exact hseen
        · exact hall f hf
      · rintro ⟨⟨hp, rest', -, hrest', hall⟩, rest'', hgo⟩
        obtain rfl := List.append_cancel_left (hrest'.symm.trans hgo)
        refine ⟨hp, rest'', ?_, by simpa using hgo, fun f hf => hall f (List.mem_cons_of_mem _ hf)⟩
        rintro rfl
        exact hrest (hfs.same_entry hp hq hgo he)

/-- From a directory, the walk finds each file that can be found from there, and finds it once. -/
theorem walk_found (hfs : fs.IsTree) {n : Nat} (hdir : Below dir)
    (hdeep : ∀ p ∈ fs.paths, ∀ rest, elements p = dir ++ rest → rest.length ≤ n) :
    ∃ ps, fs.walk n (written dir) = .ok ps ∧ ps.Nodup ∧ ∀ p, p ∈ ps ↔ fs.Finds dir p := by
  induction n generalizing dir with
  | zero =>
    refine ⟨[], rfl, List.nodup_nil, fun p => ⟨fun h => absurd h List.not_mem_nil, ?_⟩⟩
    rintro ⟨hp, rest, hne, hrest, -⟩
    exact absurd (List.length_eq_zero_iff.mp (Nat.le_zero.mp (hdeep p hp rest hrest))) hne
  | succ n ih =>
    have hvisit : ∀ x ∈ fs.list (written dir), ∃ ps, fs.visit n (written dir) x = .ok ps ∧ ps.Nodup ∧
        ∀ p, p ∈ ps ↔ fs.Finds dir p ∧ ∃ rest, elements p = dir ++ x.name :: rest := by
      intro x hx
      refine visit_found hfs hdir hx fun hbelow => ih hbelow fun p hp rest hrest => ?_
      have hlen := hdeep p hp (x.name :: rest) (by simpa using hrest)
      simpa using hlen
    let found (x : Entry) : List Text := (fs.visit n (written dir) x).toOption.getD []
    have hfound : ∀ x ∈ fs.list (written dir), fs.visit n (written dir) x = .ok (found x) ∧
        (found x).Nodup ∧
        ∀ p, p ∈ found x ↔ fs.Finds dir p ∧ ∃ rest, elements p = dir ++ x.name :: rest := by
      intro x hx
      obtain ⟨ps, hps, hrest⟩ := hvisit x hx
      have hval : found x = ps := by simp [found, hps, Except.toOption]
      rw [hval]
      exact ⟨hps, hrest⟩
    refine ⟨((fs.list (written dir)).map found).flatten, ?_, ?_, fun p => ?_⟩
    · rw [walk_succ, mapM_ok fun x hx => (hfound x hx).1]
      rfl
    · rw [← List.flatMap_def, List.nodup_flatMap]
      refine ⟨fun x hx => (hfound x hx).2.1, ?_⟩
      refine (List.pairwise_map.mp (list_names_nodup hfs hdir)).imp_of_mem ?_
      intro x y hx hy hxy p hpx hpy
      obtain ⟨-, rest, hrest⟩ := ((hfound x hx).2.2 p).mp hpx
      obtain ⟨-, rest', hrest'⟩ := ((hfound y hy).2.2 p).mp hpy
      have hsame := List.append_cancel_left (hrest.symm.trans hrest')
      exact hxy (List.cons.inj hsame).1
    · rw [← List.flatMap_def, List.mem_flatMap]
      constructor
      · rintro ⟨x, hx, hp⟩
        exact (((hfound x hx).2.2 p).mp hp).1
      · rintro hfinds
        obtain ⟨hp, rest, hne, hrest, -⟩ := id hfinds
        obtain ⟨e, rest, rfl⟩ := List.exists_cons_of_ne_nil hne
        obtain ⟨x, hx, rfl⟩ := exists_mem_list hfs hdir hp hrest
        exact ⟨x, hx, ((hfound x hx).2.2 p).mpr ⟨hfinds, rest, hrest⟩⟩

theorem le_foldl_max (ns : List Nat) (m : Nat) : m ≤ ns.foldl max m ∧ ∀ n ∈ ns, n ≤ ns.foldl max m := by
  induction ns generalizing m with
  | nil => simp
  | cons n ns ih =>
    obtain ⟨hm, hns⟩ := ih (max m n)
    rw [List.foldl_cons]
    refine ⟨by omega, fun k hk => ?_⟩
    rcases List.mem_cons.mp hk with rfl | hk
    · omega
    · exact hns k hk

/-- No path goes through more directories than the walk follows. -/
theorem length_elements_le_depthBound {p : Text} (hp : p ∈ fs.paths) :
    (elements p).length ≤ fs.depthBound := by
  obtain ⟨e, he, rfl⟩ := List.mem_map.mp hp
  have hmax := (le_foldl_max (fs.entries.map (·.1.length)) 0).2 _ (List.mem_map.mpr ⟨e, he, rfl⟩)
  have hlen := length_elements e.1
  unfold depthBound
  omega

/-- From the root every file can be found in whose path nothing is passed over. -/
theorem finds_root {p : Text} :
    fs.Finds [] p ↔ p ∈ fs.paths ∧ ∀ e ∈ elements p, isPassedOver e = false := by
  constructor
  · rintro ⟨hp, rest, -, hrest, hall⟩
    rw [List.nil_append] at hrest
    exact ⟨hp, hrest ▸ hall⟩
  · rintro ⟨hp, hall⟩
    exact ⟨hp, elements p, elements_ne_nil p, rfl, hall⟩

end Files

/-! ## The templates -/

namespace Site

/-- The templates of a site are the files with its extension in whose path no element starts with a dot
or an underscore: all of them, each once, in order. -/
theorem templates_exact (s : Site) (hfiles : s.files.IsTree)
    (hext : Config.isExtension s.config.extension = true) :
    ∃ ps, s.templates = .ok ps ∧ (ps.Pairwise fun p q => Text.lt p q = true) ∧
      ∀ p, p ∈ ps ↔ p ∈ s.files.paths ∧ Text.endsWith s.config.extension p = true ∧
        ∀ e ∈ elements p, e.head? ≠ some 0x2E ∧ e.head? ≠ some 0x5F := by
  have hslash : slash ∉ s.config.extension := by
    simp only [Config.isExtension, Bool.and_eq_true] at hext
    simpa [slash] using hext.1.2
  have hdeep : ∀ p ∈ s.files.paths, ∀ rest, elements p = [] ++ rest →
      rest.length ≤ s.files.depthBound := fun p hp rest hrest =>
    (List.nil_append rest ▸ hrest) ▸ Files.length_elements_le_depthBound hp
  obtain ⟨found, hwalk, hnodup, hmem⟩ := Files.walk_found hfiles Below.nil hdeep
  have hroot : s.files.walk s.files.depthBound here = .ok found := hwalk
  refine ⟨_, by unfold templates; rw [hroot]; rfl, Text.sort_strict (hnodup.filter _), fun p => ?_⟩
  rw [(Text.sort_perm _).mem_iff, List.mem_filter, hmem, Files.finds_root]
  have hseen : (∀ e ∈ elements p, Files.isPassedOver e = false) ↔
      ∀ e ∈ elements p, e.head? ≠ some 0x2E ∧ e.head? ≠ some 0x5F := by
    simp [Files.isPassedOver]
  have hbase : p ∈ s.files.paths →
      Text.endsWith s.config.extension (base p) = Text.endsWith s.config.extension p := fun hp => by
    have hsplit := (List.dropLast_append_getLast (elements_ne_nil p)).symm
    exact endsWith_base hslash (hfiles.nonempty hp _ (List.getLast_mem _)) hsplit
  rw [hseen]
  constructor
  · rintro ⟨⟨hp, hall⟩, hends⟩
    exact ⟨hp, hbase hp ▸ hends, hall⟩
  · rintro ⟨hp, hends, hall⟩
    exact ⟨⟨hp, hall⟩, (hbase hp).symm ▸ hends⟩

/-- A site whose directories have names that begin like those of files, with what is passed over beside
them. -/
def branching : Site where
  files := ⟨[(utf8 "a_/c.rhtml", utf8 "c"), (utf8 "a/b.rhtml", utf8 "b"), (utf8 "a.rhtml", utf8 "a"),
    (utf8 "a/_draft.rhtml", utf8 "x"), (utf8 ".cache/x.rhtml", utf8 "x"), (utf8 "_a/d/x.rhtml", utf8 "x"),
    (utf8 "a/notes.txt", utf8 "n"), (utf8 "a/.rhtml/x.rhtml", utf8 "x")], false⟩

theorem templates_exact_branching :
    branching.files.IsTree ∧ Config.isExtension branching.config.extension = true ∧
      ∃ ps, branching.templates = .ok ps ∧ (ps.Pairwise fun p q => Text.lt p q = true) ∧
        ∀ p, p ∈ ps ↔ p = utf8 "a.rhtml" ∨ p = utf8 "a/b.rhtml" ∨ p = utf8 "a_/c.rhtml" := by
  have hfiles : branching.files.IsTree :=
    ⟨by decide +kernel, by decide +kernel, by decide +kernel⟩
  have hext : Config.isExtension branching.config.extension = true := by decide +kernel
  obtain ⟨ps, hps, hsorted, hmem⟩ := templates_exact branching hfiles hext
  have hforth : ∀ p ∈ branching.files.paths,
      (Text.endsWith branching.config.extension p = true ∧
        ∀ e ∈ elements p, e.head? ≠ some 0x2E ∧ e.head? ≠ some 0x5F) →
      p = utf8 "a.rhtml" ∨ p = utf8 "a/b.rhtml" ∨ p = utf8 "a_/c.rhtml" := by decide +kernel
  have hback : ∀ p ∈ [utf8 "a.rhtml", utf8 "a/b.rhtml", utf8 "a_/c.rhtml"],
      p ∈ branching.files.paths ∧ Text.endsWith branching.config.extension p = true ∧
        ∀ e ∈ elements p, e.head? ≠ some 0x2E ∧ e.head? ≠ some 0x5F := by decide +kernel
  refine ⟨hfiles, hext, ps, hps, hsorted, fun p => (hmem p).trans ⟨fun h => hforth p h.1 h.2, ?_⟩⟩
  exact fun h => hback p (by simpa using h)

end Site
end Atmark
