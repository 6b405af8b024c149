import Atmark.Proofs.Text.Pieces
import Atmark.Text.Case
import Atmark.Text.Letter

/-! The mappings of case. What is mapped is one of the pairs that the runs of a table list (`toUpper_cases`), so what a
table keeps is checked pair by pair: the capital of a letter is a letter, nothing becomes a digit or ceases to be one,
and the capital of a capital is itself. Whether the capital is an upper-case letter is another question
(`hasCapital`): letters without case are their own capitals, and the capital of some letters is a title-case letter. -/
namespace Atmark.Text

/-- Texts that differ in case alone have the same number of characters. -/
theorem length_runes_lower (t : Text) : (runes (lower t)).length = (runes t).length := by
  simp [lower, runes_ofRunes]

theorem length_runes_of_sameFold {s t : Text} (h : sameFold s t = true) :
    (runes s).length = (runes t).length := by
  have h := congrArg List.length (beq_iff_eq.mp h)
  simpa [folded] using h

/-- A character stays, or one of the runs takes it to its image. -/
theorem mapChar_cases (rs : List Run) (c : Char) : mapChar rs c = c ∨ ∃ run ∈ rs,
    run.maps c.toNat = true ∧ mapChar rs c = Char.ofNat (run.image + (c.toNat - run.lo)) := by
  unfold mapChar
  split
  · rename_i run hrun
    have hmaps := List.find?_some hrun
    exact .inr ⟨run, List.mem_of_find?_eq_some hrun, hmaps, rfl⟩
  · exact .inl rfl

/-- A character with the image `d` is `d` itself, or one of the runs takes it there. -/
theorem eq_or_exists_run {rs : List Run} {c d : Char} (hd : 0 < d.toNat) (h : mapChar rs c = d) :
    c = d ∨ ∃ run ∈ rs, run.maps c.toNat = true ∧ run.image + (c.toNat - run.lo) = d.toNat := by
  rcases mapChar_cases rs c with hstay | ⟨run, hrun, hmaps, himage⟩
  · exact .inl (hstay.symm.trans h)
  · refine .inr ⟨run, hrun, hmaps, ?_⟩
    rw [← h, himage] at hd ⊢
    by_cases hvalid : (run.image + (c.toNat - run.lo)).isValidChar
    · rw [Char.ofNat, dif_pos hvalid]
      rfl
    · rw [Char.ofNat, dif_neg hvalid] at hd
      cases hd

/-! ## Tables as sets of bits -/

/-- The code points in some ranges as the bits of one number, in which each is looked up in one step. -/
def codeSet (rs : List (Nat × Nat)) : Nat :=
  rs.foldr (fun r s => (1 <<< (r.2 + 1 - r.1) - 1) <<< r.1 ||| s) 0

theorem testBit_codeSet (rs : List (Nat × Nat)) (n : Nat) : (codeSet rs).testBit n = inRanges rs n := by
  induction rs with
  | nil => simp [codeSet, inRanges]
  | cons r rs ih =>
    have hrange : ((1 <<< (r.2 + 1 - r.1) - 1) <<< r.1).testBit n = (r.1 ≤ n && n ≤ r.2) := by
      rw [Nat.one_shiftLeft, Nat.testBit_shiftLeft, Nat.testBit_two_pow_sub_one, Bool.eq_iff_iff]
      simp only [Bool.and_eq_true, decide_eq_true_eq]
      omega
    simp only [codeSet, inRanges, List.foldr_cons, List.any_cons, Nat.testBit_or] at ih ⊢
    rw [ih, hrange]

/-- The letters as a set of bits. -/
def letterSet : Nat := codeSet letterRanges

/-- The digits as a set of bits. -/
def digitSet : Nat := codeSet digitRanges

/-- The classes of an ASCII character are those of the tables. -/
theorem ascii_classes : ((List.range 0x80).all fun n =>
    (Char.ofNat n).isAlpha == letterSet.testBit n && (Char.ofNat n).isDigit == digitSet.testBit n) = true := by
  decide +kernel

theorem isLetter_eq (c : Char) : isLetter c = letterSet.testBit c.toNat := by
  unfold isLetter
  split
  · rename_i hascii
    have hclasses := List.all_eq_true.mp ascii_classes c.toNat (List.mem_range.mpr hascii)
    rw [Char.ofNat_toNat, Bool.and_eq_true, beq_iff_eq] at hclasses
    exact hclasses.1
  · exact (testBit_codeSet letterRanges c.toNat).symm

theorem isDigit_eq (c : Char) : isDigit c = digitSet.testBit c.toNat := by
  unfold isDigit
  split
  · rename_i hascii
    have hclasses := List.all_eq_true.mp ascii_classes c.toNat (List.mem_range.mpr hascii)
    rw [Char.ofNat_toNat, Bool.and_eq_true, beq_iff_eq, beq_iff_eq] at hclasses
    exact hclasses.2
  · exact (testBit_codeSet digitRanges c.toNat).symm

/-! ## Capitals -/

/-- The code points that a run maps, each with its image. -/
def Run.pairs (r : Run) : List (Nat × Nat) :=
  (List.range ((r.hi - r.lo) / r.step + 1)).map fun k => (r.lo + k * r.step, r.image + k * r.step)

theorem Run.mem_pairs {r : Run} {n : Nat} (h : r.maps n = true) : (n, r.image + (n - r.lo)) ∈ r.pairs := by
  simp only [Run.maps, Bool.and_eq_true, decide_eq_true_eq, beq_iff_eq] at h
  obtain ⟨⟨hlo, hhi⟩, hstep⟩ := h
  have hk : (n - r.lo) / r.step * r.step = n - r.lo := Nat.div_mul_cancel (Nat.dvd_of_mod_eq_zero hstep)
  refine List.mem_map.mpr ⟨(n - r.lo) / r.step, List.mem_range.mpr ?_, ?_⟩
  · exact Nat.lt_succ_of_le (Nat.div_le_div_right (Nat.sub_le_sub_right hhi _))
  · rw [hk, Nat.add_sub_cancel' hlo]

/-- The code points with a different capital, each with that. -/
def upperPairs : List (Nat × Nat) := upperRuns.flatMap Run.pairs

/-- The code points with a different capital as a set of bits. -/
def smallSet : Nat := codeSet (upperPairs.map fun p => (p.1, p.1))

/-- The image is a code point and has no other capital, it is a letter if the mapped one is, and neither is a
digit. -/
def keepsClass (p : Nat × Nat) : Bool :=
  decide p.2.isValidChar && !smallSet.testBit p.2 && (!letterSet.testBit p.1 || letterSet.testBit p.2) &&
    !digitSet.testBit p.1 && !digitSet.testBit p.2

theorem upperPairs_keepClass : upperPairs.all keepsClass = true := by decide +kernel

theorem toUpper_cases (c : Char) : toUpper c = c ∨ (c.toNat, (toUpper c).toNat) ∈ upperPairs := by
  rcases mapChar_cases upperRuns c with hstay | ⟨run, hrun, hmaps, himage⟩
  · exact .inl hstay
  · have hmem := List.mem_flatMap.mpr ⟨run, hrun, Run.mem_pairs hmaps⟩
    have hkeeps := List.all_eq_true.mp upperPairs_keepClass _ hmem
    simp only [keepsClass, Bool.and_eq_true, decide_eq_true_eq] at hkeeps
    right
    rw [toUpper, himage, Char.ofNat, dif_pos hkeeps.1.1.1.1]
    exact hmem

/-- A character is its own capital, or its capital is different and of the same class. -/
theorem toUpper_keeps (c : Char) : toUpper c = c ∨ keepsClass (c.toNat, (toUpper c).toNat) = true :=
  (toUpper_cases c).imp_right (List.all_eq_true.mp upperPairs_keepClass _)

theorem isLetter_toUpper {c : Char} (h : isLetter c = true) : isLetter (toUpper c) = true := by
  rcases toUpper_keeps c with hstay | hkeeps
  · rw [hstay, h]
  · rw [isLetter_eq] at h ⊢
    simp only [keepsClass, h, Bool.not_true, Bool.false_or, Bool.and_eq_true] at hkeeps
    exact hkeeps.1.1.2

theorem isDigit_toUpper (c : Char) : isDigit (toUpper c) = isDigit c := by
  rcases toUpper_keeps c with hstay | hkeeps
  · rw [hstay]
  · simp only [keepsClass, Bool.and_eq_true, Bool.not_eq_true'] at hkeeps
    rw [isDigit_eq, isDigit_eq, hkeeps.1.2, hkeeps.2]

/-- A capital is its own capital. -/
theorem toUpper_toUpper (c : Char) : toUpper (toUpper c) = toUpper c := by
  rcases toUpper_keeps c with hstay | hkeeps
  · rw [hstay, hstay]
  · refine (toUpper_cases (toUpper c)).resolve_right fun hmem => ?_
    simp only [keepsClass, smallSet, testBit_codeSet, Bool.and_eq_true, Bool.not_eq_true'] at hkeeps
    have hsmall := List.any_eq_false.mp hkeeps.1.1.1.2 _ (List.mem_map_of_mem hmem)
    simp at hsmall

/-! ## Upper-case letters -/

/-- The upper-case letters, by the general category Lu of Unicode 17.0: from the first to the second code point of an
entry, in steps of its third number. -/
def capitalSteps : List (Nat × Nat × Nat) := [
  (65, 90, 1), (192, 214, 1), (216, 222, 1), (256, 310, 2), (313, 327, 2), (330, 376, 2),
  (377, 381, 2), (385, 386, 1), (388, 390, 2), (391, 393, 2), (394, 395, 1), (398, 401, 1),
  (403, 404, 1), (406, 408, 1), (412, 413, 1), (415, 416, 1), (418, 422, 2), (423, 425, 2),
  (428, 430, 2), (431, 433, 2), (434, 435, 1), (437, 439, 2), (440, 440, 1), (444, 444, 1),
  (452, 452, 1), (455, 455, 1), (458, 458, 1), (461, 475, 2), (478, 494, 2), (497, 497, 1),
  (500, 502, 2), (503, 504, 1), (506, 562, 2), (570, 571, 1), (573, 574, 1), (577, 579, 2),
  (580, 582, 1), (584, 590, 2), (880, 882, 2), (886, 886, 1), (895, 895, 1), (902, 904, 2),
  (905, 906, 1), (908, 910, 2), (911, 913, 2), (914, 929, 1), (931, 939, 1), (975, 975, 1),
  (978, 980, 1), (984, 1006, 2), (1012, 1012, 1), (1015, 1017, 2), (1018, 1018, 1), (1021, 1071, 1),
  (1120, 1152, 2), (1162, 1216, 2), (1217, 1229, 2), (1232, 1326, 2), (1329, 1366, 1),
  (4256, 4293, 1), (4295, 4295, 1), (4301, 4301, 1), (5024, 5109, 1), (7305, 7305, 1),
  (7312, 7354, 1), (7357, 7359, 1), (7680, 7828, 2), (7838, 7934, 2), (7944, 7951, 1),
  (7960, 7965, 1), (7976, 7983, 1), (7992, 7999, 1), (8008, 8013, 1), (8025, 8031, 2),
  (8040, 8047, 1), (8120, 8123, 1), (8136, 8139, 1), (8152, 8155, 1), (8168, 8172, 1),
  (8184, 8187, 1), (8450, 8450, 1), (8455, 8455, 1), (8459, 8461, 1), (8464, 8466, 1),
  (8469, 8469, 1), (8473, 8477, 1), (8484, 8490, 2), (8491, 8493, 1), (8496, 8499, 1),
  (8510, 8511, 1), (8517, 8517, 1), (8579, 8579, 1), (11264, 11311, 1), (11360, 11362, 2),
  (11363, 11364, 1), (11367, 11373, 2), (11374, 11376, 1), (11378, 11378, 1), (11381, 11381, 1),
  (11390, 11392, 1), (11394, 11490, 2), (11499, 11501, 2), (11506, 11506, 1), (42560, 42604, 2),
  (42624, 42650, 2), (42786, 42798, 2), (42802, 42862, 2), (42873, 42877, 2), (42878, 42886, 2),
  (42891, 42893, 2), (42896, 42898, 2), (42902, 42922, 2), (42923, 42926, 1), (42928, 42932, 1),
  (42934, 42948, 2), (42949, 42951, 1), (42953, 42955, 2), (42956, 42972, 2), (42997, 42997, 1),
  (65313, 65338, 1), (66560, 66599, 1), (66736, 66771, 1), (66928, 66938, 1), (66940, 66954, 1),
  (66956, 66962, 1), (66964, 66965, 1), (68736, 68786, 1), (68944, 68965, 1), (71840, 71871, 1),
  (93760, 93791, 1), (93856, 93880, 1), (119808, 119833, 1), (119860, 119885, 1),
  (119912, 119937, 1), (119964, 119966, 2), (119967, 119967, 1), (119970, 119970, 1),
  (119973, 119974, 1), (119977, 119980, 1), (119982, 119989, 1), (120016, 120041, 1),
  (120068, 120069, 1), (120071, 120074, 1), (120077, 120084, 1), (120086, 120092, 1),
  (120120, 120121, 1), (120123, 120126, 1), (120128, 120132, 1), (120134, 120134, 1),
  (120138, 120144, 1), (120172, 120197, 1), (120224, 120249, 1), (120276, 120301, 1),
  (120328, 120353, 1), (120380, 120405, 1), (120432, 120457, 1), (120488, 120512, 1),
  (120546, 120570, 1), (120604, 120628, 1), (120662, 120686, 1), (120720, 120744, 1),
  (120778, 120778, 1), (125184, 125217, 1)]

/-- An upper-case letter of any script. A title-case letter is none. -/
def isUpper (c : Char) : Bool :=
  capitalSteps.any fun (lo, hi, step) => lo ≤ c.toNat && c.toNat ≤ hi && (c.toNat - lo) % step == 0

/-- The capital of the character is an upper-case letter. -/
def hasCapital (c : Char) : Bool := isUpper (toUpper c)

end Atmark.Text
