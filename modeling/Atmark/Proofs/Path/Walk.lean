import Mathlib.Data.List.TakeWhile
import Atmark.Content

/-!
What a name in a template means, told as a walk through the directories below the root. `resolve?`
cleans texts and looks at their beginnings; here the same is said with the entries that are passed, so
that it can be read off that no walk ends outside the root and that every path that is read is written
in its plain form.
-/
namespace Atmark.Path

/-! ## Walks -/

/-- The name of an entry of a directory. -/
structure IsEntry (e : Text) : Prop where
  nonempty : e ≠ []
  notHere : e ≠ here
  notParent : e ≠ parent
  undivided : slash ∉ e

/-- A directory below the root, by the entries that lead to it. -/
def Below (dir : List Text) : Prop := ∀ e ∈ dir, IsEntry e

/-- One step from a directory; there is none from the root to its parent. -/
def step? (dir : List Text) (e : Text) : Option (List Text) :=
  if e = [] ∨ e = here then some dir
  else if e = parent then if dir = [] then none else some dir.dropLast
  else some (dir ++ [e])

/-- Where the elements of a name lead from a directory, if no step leaves the root. -/
def walk? (dir : List Text) (es : List Text) : Option (List Text) := es.foldlM step? dir

/-- The same from the parent of a directory; there is none above the root. -/
def walkAbove? (dir : List Text) (es : List Text) : Option (List Text) :=
  if dir = [] then none else walk? dir.dropLast es

/-- Where the elements of a name lead from the root, if the root is its own parent. -/
def walkFromRoot (es : List Text) : List Text := es.foldl (fun dir e => (step? dir e).getD []) []

/-- The directory of a file. -/
def directory (file : Text) : List Text := (elements file).dropLast

/-- The path of a place below the root. -/
def written (place : List Text) : Text :=
  if place = [] then here else Text.intercalate [slash] place

/-- A path that stays in the root: not rooted, and the root itself or plain elements only. -/
structure Inside (p : Text) : Prop where
  unrooted : isRooted p = false
  plain : p = [] ∨ p = here ∨ ∀ e ∈ elements p, e ≠ [] ∧ e ≠ here ∧ e ≠ parent

/-! ## Texts cut at a byte and joined again -/

theorem splitOn_eq (sep : UInt8) (t : Text) : Text.splitOn sep t = List.splitOn sep t := by
  induction t with
  | nil => rfl
  | cons b r ih =>
    rw [List.splitOn_cons_eq_if_modifyHead, ← ih]
    by_cases hb : b = sep
    · simp [Text.splitOn, hb]
    · cases h : Text.splitOn sep r <;> simp [Text.splitOn, hb, h]
      exact absurd (ih ▸ h) (List.splitOn_ne_nil sep r)

theorem intercalate_eq (sep : Text) (ts : List Text) :
    Text.intercalate sep ts = List.intercalate sep ts := by
  induction ts with
  | nil => rfl
  | cons t ts ih =>
    cases ts with
    | nil => simp [Text.intercalate]
    | cons u us => rw [List.intercalate_cons_cons, ← ih]; rfl

theorem elements_append (p q : Text) : elements (p ++ slash :: q) = elements p ++ elements q := by
  simp only [elements, splitOn_eq, List.splitOn_append_cons_self]

theorem elements_whole {p : Text} (h : slash ∉ p) : elements p = [p] := by
  rw [elements, splitOn_eq, List.splitOn_eq_singleton h]

theorem elements_joined {ts : List Text} (hne : ts ≠ []) (h : ∀ t ∈ ts, slash ∉ t) :
    elements (Text.intercalate [slash] ts) = ts := by
  rw [elements, splitOn_eq, intercalate_eq, List.splitOn_intercalate slash h hne]

theorem joined_elements (p : Text) : Text.intercalate [slash] (elements p) = p := by
  rw [elements, splitOn_eq, intercalate_eq, List.intercalate_splitOn]

theorem undivided_of_mem_elements {p e : Text} (h : e ∈ elements p) : slash ∉ e := by
  induction p generalizing e with
  | nil => simp [elements, Text.splitOn] at h; simp [h]
  | cons b p ih =>
    rw [elements, splitOn_eq, List.splitOn_cons_eq_if_modifyHead, ← splitOn_eq] at h
    by_cases hb : b = slash
    · rcases List.mem_cons.1 (by simpa [hb] using h) with rfl | h
      · simp
      · exact ih h
    · simp only [beq_iff_eq, hb, if_false] at h
      cases hs : Text.splitOn slash p with
      | nil => simp [hs] at h
      | cons t ts =>
        rcases List.mem_cons.1 (by simpa [hs] using h) with rfl | h
        · have := ih (e := t) (by simp [elements, hs])
          simp [this, Ne.symm hb]
        · exact ih (by simp [elements, hs, h])

/-! ## Places below the root -/

theorem Below.nil : Below [] := by
  intro e he
  cases he

theorem Below.dropLast {dir : List Text} (hd : Below dir) : Below dir.dropLast :=
  fun e he => hd e (List.mem_of_mem_take (List.dropLast_eq_take ▸ he))

theorem Below.undivided {dir : List Text} (hd : Below dir) : ∀ e ∈ dir, slash ∉ e :=
  fun e he => (hd e he).undivided

/-- A step from below the root ends there. -/
theorem Below.step {dir place : List Text} {e : Text} (hd : Below dir) (he : slash ∉ e)
    (h : step? dir e = some place) : Below place := by
  unfold step? at h
  split at h
  · cases h
    exact hd
  · rename_i hne
    obtain ⟨hnil, hhere⟩ := not_or.1 hne
    split at h
    · split at h
      · cases h
      · cases h
        exact hd.dropLast
    · rename_i hparent
      cases h
      intro x hx
      rcases List.mem_append.1 hx with hx | hx
      · exact hd x hx
      · cases List.mem_singleton.1 hx
        exact ⟨hnil, hhere, hparent, he⟩

theorem Below.walk {dir place es : List Text} (hd : Below dir) (hes : ∀ e ∈ es, slash ∉ e)
    (h : walk? dir es = some place) : Below place := by
  induction es generalizing dir with
  | nil =>
    cases h
    exact hd
  | cons e es ih =>
    obtain ⟨next, hn, hw⟩ := Option.bind_eq_some_iff.1 h
    have he : slash ∉ e := hes e (by simp)
    exact ih (hd.step he hn) (fun x hx => hes x (by simp [hx])) hw

theorem Below.walkFromRoot {es : List Text} (hes : ∀ e ∈ es, slash ∉ e) :
    Below (walkFromRoot es) := by
  have walks : ∀ dir, Below dir → (∀ e ∈ es, slash ∉ e) →
      Below (es.foldl (fun dir e => (step? dir e).getD []) dir) := by
    induction es with
    | nil => exact fun dir hd _ => hd
    | cons e es ih =>
      intro dir hd hes
      have next : Below ((step? dir e).getD []) := by
        cases h : step? dir e with
        | none => exact Below.nil
        | some place => exact hd.step (hes e (by simp)) h
      have hrest : ∀ x ∈ es, slash ∉ x := fun x hx => hes x (by simp [hx])
      exact ih hrest _ next hrest
  exact walks [] Below.nil hes

theorem elements_written {place : List Text} (hp : Below place) :
    elements (written place) = if place = [] then [here] else place := by
  by_cases h : place = []
  · simp only [written, h, if_true]
    decide
  · simp only [written, h, if_false]
    exact elements_joined h hp.undivided

theorem isRooted_iff (p : Text) : isRooted p = true ↔ ∃ es, elements p = [] :: es ∧ p ≠ [] := by
  cases p with
  | nil => simp [isRooted]
  | cons b p =>
    rw [elements, splitOn_eq, List.splitOn_cons_eq_if_modifyHead]
    by_cases hb : b = slash
    · simp [isRooted, hb]
    · cases hs : List.splitOn slash p <;> simp [isRooted, hb]

/-- The joined entries of a place are a path inside the root. -/
theorem inside_joined {place : List Text} (hp : Below place) :
    Inside (Text.intercalate [slash] place) := by
  by_cases h : place = []
  · subst h
    exact ⟨rfl, .inl rfl⟩
  · have he := elements_joined h hp.undivided
    refine ⟨?_, .inr (.inr ?_)⟩
    · by_contra hr
      obtain ⟨es, hes, -⟩ := (isRooted_iff _).1 (by simpa using hr)
      rw [he] at hes
      exact (hp [] (by simp [hes])).nonempty rfl
    · intro e hm
      rw [he] at hm
      exact ⟨(hp e hm).nonempty, (hp e hm).notHere, (hp e hm).notParent⟩

theorem inside_written {place : List Text} (hp : Below place) : Inside (written place) := by
  by_cases h : place = []
  · simp only [written, h, if_true]
    exact ⟨by decide, .inr (.inl rfl)⟩
  · simp only [written, h, if_false]
    exact inside_joined hp

/-! ## Cleaned elements -/

/-- On entries below the root, the elements are cleaned as they are walked. What is left when a step
leaves the root depends on whether the path is rooted. -/
theorem descend_eq (rooted : Bool) {dir : List Text} (hd : Below dir) (e : Text) :
    descend rooted dir.reverse e =
      match step? dir e with
      | some place => place.reverse
      | none => if rooted then [] else [parent] := by
  by_cases hskip : e = [] ∨ e = here
  · have hs : (e.isEmpty || e = here) = true := by simpa using hskip
    unfold descend step?
    rw [if_pos hs, if_pos hskip]
  · have hs : ¬(e.isEmpty || e = here) = true := by simpa using hskip
    unfold descend step?
    rw [if_neg hs, if_neg hskip]
    by_cases hp : e = parent
    · rw [if_pos hp, if_pos hp]
      rcases List.eq_nil_or_concat dir with rfl | ⟨init, a, rfl⟩
      · rfl
      · have ha : a ≠ parent := (hd a (by simp)).notParent
        simp [ha]
    · rw [if_neg hp, if_neg hp]
      simp

theorem cleanFrom_of_walk {dir place es : List Text} (hd : Below dir) (hes : ∀ e ∈ es, slash ∉ e)
    (h : walk? dir es = some place) : es.foldl (descend false) dir.reverse = place.reverse := by
  induction es generalizing dir with
  | nil =>
    cases h
    rfl
  | cons e es ih =>
    obtain ⟨next, hn, hw⟩ := Option.bind_eq_some_iff.1 h
    have he : slash ∉ e := hes e (by simp)
    rw [List.foldl_cons, descend_eq false hd, hn]
    exact ih (hd.step he hn) (fun x hx => hes x (by simp [hx])) hw

/-- Once a relative path has left the root, it never comes back: its first element stays `..`. -/
theorem descend_outside {above : List Text} (h : above.getLast? = some parent) (e : Text) :
    (descend false above e).getLast? = some parent := by
  unfold descend
  split
  · exact h
  · split
    · cases above with
      | nil => cases h
      | cons a as =>
        by_cases ha : a = parent
        · simpa [ha] using h
        · cases as with
          | nil => simp [ha] at h
          | cons b bs => simpa [ha] using h
    · cases above with
      | nil => cases h
      | cons a as => simpa using h

theorem cleanFrom_outside {above es : List Text} (h : above.getLast? = some parent) :
    (es.foldl (descend false) above).getLast? = some parent := by
  induction es generalizing above with
  | nil => exact h
  | cons e es ih => exact ih (descend_outside h e)

theorem cleanFrom_of_leaves {dir es : List Text} (hd : Below dir) (hes : ∀ e ∈ es, slash ∉ e)
    (h : walk? dir es = none) :
    (es.foldl (descend false) dir.reverse).getLast? = some parent := by
  induction es generalizing dir with
  | nil => cases h
  | cons e es ih =>
    rw [List.foldl_cons, descend_eq false hd]
    cases hn : step? dir e with
    | none => exact cleanFrom_outside rfl
    | some next =>
      have hw : walk? next es = none := by simpa [walk?, hn] using h
      exact ih (hd.step (hes e (by simp)) hn) (fun x hx => hes x (by simp [hx])) hw

theorem cleanRooted (es : List Text) (hes : ∀ e ∈ es, slash ∉ e) :
    cleanElements true es = walkFromRoot es := by
  have walks : ∀ dir, Below dir → (∀ e ∈ es, slash ∉ e) →
      es.foldl (descend true) dir.reverse =
        (es.foldl (fun dir e => (step? dir e).getD []) dir).reverse := by
    induction es with
    | nil => exact fun _ _ _ => rfl
    | cons e es ih =>
      intro dir hd hes
      have hrest : ∀ x ∈ es, slash ∉ x := fun x hx => hes x (by simp [hx])
      rw [List.foldl_cons, List.foldl_cons, descend_eq true hd]
      cases h : step? dir e with
      | none => exact ih hrest [] Below.nil hrest
      | some place => exact ih hrest place (hd.step (hes e (by simp)) h) hrest
  have := walks [] Below.nil hes
  simp only [cleanElements, walkFromRoot, List.reverse_nil] at this ⊢
  rw [this, List.reverse_reverse]

/-! ## Joined paths -/

theorem isRooted_written {place : List Text} (hp : Below place) : isRooted (written place) = false :=
  (inside_written hp).unrooted

theorem written_ne_nil {place : List Text} (hp : Below place) : written place ≠ [] := by
  intro h
  have he := elements_written hp
  rw [h] at he
  by_cases hn : place = []
  · rw [if_pos hn] at he
    exact absurd he (by decide)
  · rw [if_neg hn] at he
    exact (hp [] (by rw [← he]; decide)).nonempty rfl

/-- Plain entries lead further down. -/
theorem Below.walk_append {dir rest : List Text} (h : Below (dir ++ rest)) :
    walk? dir rest = some (dir ++ rest) := by
  induction rest generalizing dir with
  | nil => simp [walk?]
  | cons e rest ih =>
    have he : IsEntry e := h e (by simp)
    have hs : step? dir e = some (dir ++ [e]) := by
      simp [step?, he.nonempty, he.notHere, he.notParent]
    have hw : walk? (dir ++ [e]) rest = some (dir ++ [e] ++ rest) := ih (by simpa using h)
    simp only [walk?, List.foldlM_cons, hs, Option.bind_eq_bind, Option.bind_some]
    simpa [walk?] using hw

theorem walk_written {place : List Text} (hp : Below place) :
    walk? [] (elements (written place)) = some place := by
  rw [elements_written hp]
  by_cases h : place = []
  · rw [if_pos h, h]
    decide
  · have hwalk : walk? [] place = some ([] ++ place) := Below.walk_append hp
    rw [if_neg h]
    exact hwalk

theorem cleanFrom_written {place : List Text} (hp : Below place) :
    (elements (written place)).foldl (descend false) [] = place.reverse :=
  cleanFrom_of_walk Below.nil (fun _ he => undivided_of_mem_elements he) (walk_written hp)

theorem joined_eq_nil {place : List Text} (hp : Below place)
    (h : Text.intercalate [slash] place = []) : place = [] := by
  by_contra hne
  have he := elements_joined hne hp.undivided
  rw [h] at he
  exact (hp [] (by rw [← he]; decide)).nonempty rfl

/-- A relative path whose elements are cleaned to a place below the root is cleaned to its path. -/
theorem clean_eq_written {p : Text} {place : List Text} (hr : isRooted p = false)
    (hp : Below place) (h : (elements p).foldl (descend false) [] = place.reverse) :
    clean p = written place := by
  have hc : cleanElements false (elements p) = place := by
    rw [cleanElements, h, List.reverse_reverse]
  simp only [clean, hr, hc, written, Bool.false_eq_true, if_false, List.isEmpty_iff]
  by_cases hn : place = []
  · simp [hn, Text.intercalate]
  · rw [if_neg hn, if_neg (fun he => hn (joined_eq_nil hp he))]

theorem isRooted_append {p : Text} (hp : p ≠ []) (q : Text) : isRooted (p ++ q) = isRooted p := by
  cases p with
  | nil => exact absurd rfl hp
  | cons b p => rfl

/-- The directory of a path is the directory of its place. -/
theorem dir_written {place : List Text} (hp : Below place) :
    dir (written place) = written place.dropLast := by
  rcases List.eq_nil_or_concat place with rfl | ⟨init, a, rfl⟩
  · decide
  · rw [List.concat_eq_append] at hp ⊢
    have ha : slash ∉ a := (hp a (by simp)).undivided
    have ha' : ∀ b ∈ a.reverse, (b != slash) = true := by
      intro b hb
      have : b ≠ slash := fun h => ha (h ▸ List.mem_reverse.1 hb)
      simpa using this
    have hi : Below init := fun e he => hp e (by simp [he])
    rw [List.dropLast_concat]
    by_cases hn : init = []
    · subst hn
      have hw : written ([] ++ [a]) = a := by simp [written, Text.intercalate]
      have hd : a.reverse.dropWhile (· != slash) = [] := List.dropWhile_eq_nil_iff.2 ha'
      rw [hw, dir, hd]
      decide
    · have hw : written (init ++ [a]) = written init ++ slash :: a := by
        have he : elements (written init ++ slash :: a) = init ++ [a] := by
          rw [elements_append, elements_written hi, if_neg hn, elements_whole ha]
        rw [written, if_neg (by simp), ← he, joined_elements]
      have hd : (written init ++ slash :: a).reverse.dropWhile (· != slash) =
          slash :: (written init).reverse := by
        rw [List.reverse_append, List.reverse_cons, List.append_assoc,
          List.dropWhile_append_of_pos ha']
        simp
      rw [hw, dir, hd, List.reverse_cons, List.reverse_reverse]
      refine clean_eq_written ?_ hi ?_
      · rw [isRooted_append (written_ne_nil hi), isRooted_written hi]
      · rw [elements_append, List.foldl_append, cleanFrom_written hi]
        rfl

/-- A path to a file is the path of a place, and its directory that of the place. -/
theorem exists_of_isFilePath {file : Text} (h : isFilePath file = true) :
    ∃ place, Below place ∧ file = written place ∧ directory file = place.dropLast := by
  by_cases hh : file = here
  · exact ⟨[], Below.nil, hh, by subst hh; decide⟩
  · have hall : ∀ e ∈ elements file, e ≠ [] ∧ e ≠ here ∧ e ≠ parent := by
      simpa [isFilePath, hh, and_assoc] using (Bool.and_eq_true_iff.1 h).2
    have hb : Below (elements file) := fun e he =>
      ⟨(hall e he).1, (hall e he).2.1, (hall e he).2.2, undivided_of_mem_elements he⟩
    have hne : elements file ≠ [] := by
      rw [elements, splitOn_eq]
      exact List.splitOn_ne_nil slash file
    refine ⟨elements file, hb, ?_, rfl⟩
    rw [written, if_neg hne, joined_elements]

/-! ## What a name means -/

theorem startsWith_iff {p t : Text} : Text.startsWith p t = true ↔ ∃ r, t = p ++ r := by
  induction p generalizing t with
  | nil => simp [Text.startsWith, Text.strip?]
  | cons a p ih =>
    cases t with
    | nil => simp [Text.startsWith, Text.strip?]
    | cons b t =>
      by_cases hab : a = b
      · simpa [Text.startsWith, Text.strip?, hab] using ih
      · simp [Text.startsWith, Text.strip?, hab, Ne.symm hab]

theorem leavesRoot_written {place : List Text} (hp : Below place) :
    leavesRoot (written place) = false := by
  have hmem : parent ∉ elements (written place) := by
    rw [elements_written hp]
    by_cases h : place = []
    · rw [if_pos h]
      decide
    · rw [if_neg h]
      exact fun hm => (hp parent hm).notParent rfl
  by_contra hl
  simp only [leavesRoot, Bool.not_eq_false, Bool.or_eq_true, decide_eq_true_eq,
    startsWith_iff] at hl
  rcases hl with h | ⟨r, h⟩
  · exact hmem (by rw [h]; decide)
  · have hcut : elements (written place) = elements parent ++ elements r := by
      rw [h, ← elements_append]
      rfl
    exact hmem (by rw [hcut]; exact List.mem_append_left _ (by decide))

theorem elements_join (place : List Text) (name : Text) :
    elements (written place ++ [slash] ++ name) = elements (written place) ++ elements name := by
  rw [List.append_assoc]
  exact elements_append _ _

variable {place : List Text} {name : Text}

theorem join_written (hp : Below place) (hn : name ≠ []) :
    join (written place) name = clean (written place ++ [slash] ++ name) := by
  have hw := written_ne_nil hp
  simp [join, hn, hw]

/-- A name joined to a directory is the path of the place to which it leads from there. -/
theorem join_of_walk (hp : Below place) (hn : name ≠ []) {target : List Text}
    (h : walk? place (elements name) = some target) : join (written place) name = written target := by
  have hes : ∀ e ∈ elements name, slash ∉ e := fun e he => undivided_of_mem_elements he
  rw [join_written hp hn]
  refine clean_eq_written ?_ (hp.walk hes h) ?_
  · rw [List.append_assoc, isRooted_append (written_ne_nil hp), isRooted_written hp]
  · rw [elements_join, List.foldl_append, cleanFrom_written hp]
    exact cleanFrom_of_walk hp hes h

/-- A relative path that leads out of the root is cleaned to one that says so. -/
theorem leavesRoot_clean {p : Text} (hr : isRooted p = false) (h : walk? [] (elements p) = none) :
    leavesRoot (clean p) = true := by
  obtain ⟨rest, hc⟩ : ∃ rest, cleanElements false (elements p) = parent :: rest := by
    have hl := cleanFrom_of_leaves Below.nil (fun e he => undivided_of_mem_elements he) h
    rw [List.reverse_nil, ← List.head?_reverse] at hl
    exact List.head?_eq_some_iff.1 hl
  simp only [clean, hr, hc, Bool.false_eq_true, if_false]
  cases rest with
  | nil => decide
  | cons e rest =>
    have hs : Text.startsWith (utf8 "../") (parent ++ [slash] ++ Text.intercalate [slash] (e :: rest)) =
        true := startsWith_iff.2 ⟨_, rfl⟩
    have hne : (parent ++ [slash] ++ Text.intercalate [slash] (e :: rest)).isEmpty = false := rfl
    simp only [Text.intercalate, hne, Bool.false_eq_true, if_false, leavesRoot, hs, Bool.or_true]

/-- A name that leads out of the root gives a path that says so. -/
theorem leavesRoot_join (hp : Below place) (hn : name ≠ [])
    (h : walk? place (elements name) = none) : leavesRoot (join (written place) name) = true := by
  have hr : isRooted (written place ++ [slash] ++ name) = false := by
    rw [List.append_assoc, isRooted_append (written_ne_nil hp), isRooted_written hp]
  have hw : walk? [] (elements (written place ++ [slash] ++ name)) = none := by
    have hplace := walk_written hp
    rw [walk?] at h hplace
    rw [elements_join, walk?, List.foldlM_append, hplace]
    exact h
  rw [join_written hp hn]
  exact leavesRoot_clean hr hw

/-- A name that is not rooted means what it leads to from the directory of the file, and then what it
leads to from the parent of that. -/
theorem resolve?_relative {file : Text} (hf : isFilePath file = true) (hn : name ≠ [])
    (hr : isRooted name = false) :
    resolve? file name = (walk? (directory file) (elements name)).map fun target =>
      (written target,
        ((walkAbove? (directory file) (elements name)).map written).getD (written target)) := by
  obtain ⟨place, hp, rfl, hdir⟩ := exists_of_isFilePath hf
  have hes : ∀ e ∈ elements name, slash ∉ e := fun e he => undivided_of_mem_elements he
  have hd : Below place.dropLast := hp.dropLast
  simp only [resolve?, hr, Bool.false_eq_true, if_false, dir_written hp, dir_written hd, hdir]
  cases hw : walk? place.dropLast (elements name) with
  | none => simp [leavesRoot_join hd hn hw]
  | some target =>
    simp only [join_of_walk hd hn hw, leavesRoot_written (hd.walk hes hw), Bool.false_eq_true,
      if_false, Option.map_some, Option.some.injEq, Prod.mk.injEq, true_and, walkAbove?]
    by_cases htop : place.dropLast = []
    · rw [htop] at hw
      simp [htop, join_of_walk Below.nil hn hw, leavesRoot_written (Below.nil.walk hes hw)]
    · rw [if_neg htop]
      cases hu : walk? place.dropLast.dropLast (elements name) with
      | none => simp [leavesRoot_join hd.dropLast hn hu]
      | some upper =>
        simp [join_of_walk hd.dropLast hn hu, leavesRoot_written (hd.dropLast.walk hes hu)]

/-- A rooted name means what it leads to from the root. -/
theorem resolve?_rooted {file : Text} (hr : isRooted name = true) :
    resolve? file name =
      some (Text.intercalate [slash] (walkFromRoot (elements name)),
        Text.intercalate [slash] (walkFromRoot (elements name))) := by
  have hc := cleanRooted (elements name) (fun e he => undivided_of_mem_elements he)
  simp [resolve?, clean, hr, hc]

theorem ne_nil_of_isValidName (h : isValidName name = true) : name ≠ [] := by
  rintro rfl
  revert h
  decide

theorem inside_of_resolve? {file resolved fallback : Text} (hf : isFilePath file = true)
    (hn : isValidName name = true) (h : resolve? file name = some (resolved, fallback)) :
    Inside resolved ∧ Inside fallback := by
  have hes : ∀ e ∈ elements name, slash ∉ e := fun e he => undivided_of_mem_elements he
  cases hr : isRooted name with
  | true =>
    rw [resolve?_rooted hr] at h
    cases h
    have := inside_joined (Below.walkFromRoot hes)
    exact ⟨this, this⟩
  | false =>
    obtain ⟨place, hp, -, hdir⟩ := exists_of_isFilePath hf
    rw [resolve?_relative hf (ne_nil_of_isValidName hn) hr, hdir] at h
    obtain ⟨target, hw, ht⟩ := Option.map_eq_some_iff.1 h
    cases ht
    have hin : Inside (written target) := inside_written (hp.dropLast.walk hes hw)
    refine ⟨hin, ?_⟩
    cases hu : walkAbove? place.dropLast (elements name) with
    | none => exact hin
    | some upper =>
      unfold walkAbove? at hu
      split at hu
      · cases hu
      · exact inside_written (hp.dropLast.dropLast.walk hes hu)

/-- Contents are read at paths inside the root only: files that are the same there cannot be told
apart. -/
theorem read_congr {file : Text} (hf : isFilePath file = true) (name : Text)
    {fs fs' : Files} (same : ∀ p, Inside p → fs.read p = fs'.read p) (pos : Option Position) :
    Content.read (some fs) file name pos = Content.read (some fs') file name pos := by
  unfold Content.read
  by_cases hn : isValidName name = true
  · rw [if_neg (by simp [hn]), if_neg (by simp [hn])]
    cases h : resolve? file name with
    | none => rfl
    | some found =>
      obtain ⟨resolved, fallback⟩ := found
      obtain ⟨hin, hin'⟩ := inside_of_resolve? hf hn h
      simp only [same resolved hin, same fallback hin']
  · rw [if_pos (by simp [hn]), if_pos (by simp [hn])]

/-- No include leads out of the root. A name is refused exactly if it is relative and some step from
the directory of the file leaves the root. Else it means the place it leads to, and then the one it
leads to from one directory higher, where there is one; both are written as plain paths inside the
root, and no other path is read. -/
theorem includes_inside (file name : Text) (hf : isFilePath file = true)
    (hn : isValidName name = true) :
    (resolve? file name = none ↔
      isRooted name = false ∧ walk? (directory file) (elements name) = none) ∧
    (∀ resolved fallback, resolve? file name = some (resolved, fallback) →
      Inside resolved ∧ Inside fallback ∧
      (isRooted name = true →
        resolved = Text.intercalate [slash] (walkFromRoot (elements name)) ∧ fallback = resolved) ∧
      (isRooted name = false →
        ∃ target, walk? (directory file) (elements name) = some target ∧ resolved = written target ∧
          fallback = ((walkAbove? (directory file) (elements name)).map written).getD resolved)) ∧
    (∀ (fs fs' : Files) (pos : Option Position), (∀ p, Inside p → fs.read p = fs'.read p) →
      Content.read (some fs) file name pos = Content.read (some fs') file name pos) := by
  have hne : name ≠ [] := ne_nil_of_isValidName hn
  refine ⟨?_, ?_, fun fs fs' pos same => read_congr hf name same pos⟩
  · cases hr : isRooted name with
    | true => simp [resolve?_rooted hr]
    | false => simp [resolve?_relative hf hne hr]
  · intro resolved fallback h
    obtain ⟨hin, hin'⟩ := inside_of_resolve? hf hn h
    refine ⟨hin, hin', ?_, ?_⟩
    · intro hr
      rw [resolve?_rooted hr] at h
      cases h
      exact ⟨rfl, rfl⟩
    · intro hr
      rw [resolve?_relative hf hne hr] at h
      obtain ⟨target, hw, ht⟩ := Option.map_eq_some_iff.1 h
      cases ht
      exact ⟨target, hw, rfl, rfl⟩

/-- A name that climbs to the root and down again, in a file two directories deep: one directory higher
the same name would leave the root, so there is nothing else to try. -/
theorem includes_inside_sample :
    isFilePath (utf8 "pages/blog/index.rhtml") = true ∧
    isValidName (utf8 "../.././x/../a.html") = true ∧
    resolve? (utf8 "pages/blog/index.rhtml") (utf8 "../.././x/../a.html") =
      some (utf8 "a.html", utf8 "a.html") ∧
    Inside (utf8 "a.html") := by
  have hf : isFilePath (utf8 "pages/blog/index.rhtml") = true := by decide
  have hn : isValidName (utf8 "../.././x/../a.html") = true := by decide
  have hr : resolve? (utf8 "pages/blog/index.rhtml") (utf8 "../.././x/../a.html") =
      some (utf8 "a.html", utf8 "a.html") := by decide
  have h := includes_inside _ _ hf hn
  exact ⟨hf, hn, hr, (h.2.1 _ _ hr).1⟩

end Atmark.Path
