import Mathlib.Data.List.DropRight
import MissionIndex.Text.Letter
import MissionIndex.Text.Blank

/-!
# Trimmed texts

Trimming leaves out blanks at the ends of a text and nothing else: a character that is not blank
keeps all that stands on its other side.

There are few blank characters, so what has to hold of all of them is looked up one by one
(`of_isBlank`). That is how blanks are told from word characters and from digits, whose tables are
long.
-/

namespace MissionIndex.Text

variable {cs front rest blanks : List Char} {c : Char}

/-! ## Blank characters -/

/-- The code points of the blank characters. -/
def blankCodes : List Nat :=
  [9, 10, 11, 12, 13, 28, 29, 30, 31, 32, 0x85, 0xA0, 0x1680, 0x2000, 0x2001, 0x2002, 0x2003,
    0x2004, 0x2005, 0x2006, 0x2007, 0x2008, 0x2009, 0x200A, 0x2028, 0x2029, 0x202F, 0x205F, 0x3000]

theorem toNat_mem_blankCodes (hc : isBlank c = true) : c.toNat ∈ blankCodes := by
  simp only [isBlank, Bool.or_eq_true, Bool.and_eq_true, decide_eq_true_eq, beq_iff_eq] at hc
  simp only [blankCodes, List.mem_cons, List.not_mem_nil, or_false]
  omega

theorem of_isBlank {p : Char → Bool} (h : blankCodes.all fun n ↦ p (Char.ofNat n))
    (hc : isBlank c = true) :
    p c = true := by
  have hp := List.all_eq_true.mp h c.toNat (toNat_mem_blankCodes hc)
  rwa [Char.ofNat_toNat] at hp

theorem isWordChar_of_isBlank (hc : isBlank c = true) : isWordChar c = false :=
  Bool.not_eq_true' _ |>.mp (of_isBlank (p := fun c ↦ !isWordChar c) (by decide +kernel) hc)

theorem isBlank_of_isDecimalDigit (hc : isDecimalDigit c = true) : isBlank c = false := by
  by_contra hblank
  have hnot := of_isBlank (p := fun c ↦ !isDecimalDigit c) (by decide +kernel)
    (Bool.not_eq_false _ |>.mp hblank)
  rw [hc] at hnot
  exact absurd hnot (by decide)

/-! ## Blanks in front -/

theorem trimStart_of_blank (h : ∀ c ∈ cs, isBlank c = true) : trimStart cs = [] :=
  List.dropWhile_eq_nil_iff.mpr h

theorem trimStart_append_of_blank (h : ∀ c ∈ front, isBlank c = true) (rest : List Char) :
    trimStart (front ++ rest) = trimStart rest := List.dropWhile_append_of_pos h

theorem trimStart_cons (hc : isBlank c = false) (rest : List Char) :
    trimStart (c :: rest) = c :: rest :=
  List.dropWhile_cons_of_neg (Bool.eq_false_iff.mp hc)

theorem trimStart_append_cons (front : List Char) (hc : isBlank c = false) (rest : List Char) :
    trimStart (front ++ c :: rest) = trimStart front ++ c :: rest := by
  rw [trimStart, List.dropWhile_append]
  split
  · next hempty =>
    rw [trimStart, List.isEmpty_iff.mp hempty, List.nil_append]
    exact trimStart_cons hc rest
  · rfl

theorem trimStart_trimStart_append (front rest : List Char) :
    trimStart (trimStart front ++ rest) = trimStart (front ++ rest) := by
  induction front with
  | nil => rfl
  | cons c front ih =>
    by_cases hc : isBlank c = true
    · have hdrop : ∀ ds, trimStart (c :: ds) = trimStart ds := fun _ ↦ List.dropWhile_cons_of_pos hc
      rw [hdrop, List.cons_append, hdrop, ih]
    · rw [trimStart_cons (Bool.eq_false_iff.mpr hc)]

/-! ## Blanks at the end -/

/-- What is left out at the end of a text is blank, and what is left does not end in a blank. -/
theorem exists_trimEnd_append (cs : List Char) :
    ∃ blanks, cs = trimEnd cs ++ blanks ∧ (∀ c ∈ blanks, isBlank c = true) ∧
      ∀ c ∈ (trimEnd cs).getLast?, isBlank c = false := by
  refine ⟨(cs.reverse.takeWhile isBlank).reverse, ?_, fun c hc ↦ ?_, fun c hc ↦ ?_⟩
  · rw [trimEnd, dropEnd, ← List.reverse_append, List.takeWhile_append_dropWhile,
      List.reverse_reverse]
  · exact List.mem_takeWhile_imp (List.mem_reverse.mp hc)
  · rw [trimEnd, dropEnd, List.getLast?_reverse] at hc
    have hnot := List.head?_dropWhile_not isBlank cs.reverse
    rw [Option.mem_def.mp hc] at hnot
    exact hnot

theorem trimEnd_append (front : List Char) {c : Char} (hc : isBlank c = false) {blanks : List Char}
    (hblanks : ∀ b ∈ blanks, isBlank b = true) : trimEnd (front ++ c :: blanks) = front ++ [c] := by
  have hreverse : (front ++ c :: blanks).reverse = blanks.reverse ++ c :: front.reverse := by simp
  rw [trimEnd, dropEnd, hreverse, List.dropWhile_append_of_pos fun b hb ↦
    hblanks b (List.mem_reverse.mp hb), List.dropWhile_cons_of_neg (Bool.eq_false_iff.mp hc),
    List.reverse_cons, List.reverse_reverse]

theorem trimEnd_append_of_blank (front : List Char) (h : ∀ c ∈ blanks, isBlank c = true) :
    trimEnd (front ++ blanks) = trimEnd front := by
  rw [trimEnd, trimEnd, dropEnd, dropEnd, List.reverse_append,
    List.dropWhile_append_of_pos fun c hc ↦ h c (List.mem_reverse.mp hc)]

theorem trimEnd_concat (front : List Char) (hc : isBlank c = false) :
    trimEnd (front ++ [c]) = front ++ [c] :=
  trimEnd_append front hc (List.forall_mem_nil _)

theorem trimEnd_eq_self (h : ∀ c ∈ cs.getLast?, isBlank c = false) : trimEnd cs = cs := by
  rcases cs.eq_nil_or_concat' with rfl | ⟨front, c, rfl⟩
  · rfl
  · exact trimEnd_concat front (h c List.getLast?_concat)

/-! ## Both ends -/

theorem getLast?_trim (front : List Char) {c : Char} (hc : isBlank c = false) :
    (trim (front ++ [c])).getLast? = some c := by
  have htrim : trim (front ++ [c]) = trimEnd (trimStart (front ++ [c])) := rfl
  rw [htrim, trimStart_append_cons front hc, trimEnd_concat _ hc, List.getLast?_concat]

theorem trim_concat (cs : List Char) (hc : isBlank c = true) : trim (cs ++ [c]) = trim cs := by
  have hdrop : ∀ ds : List Char, dropEnd isBlank (ds ++ [c]) = dropEnd isBlank ds := fun ds ↦
    trimEnd_append_of_blank ds (List.forall_mem_singleton.mpr hc)
  rw [trim, trim, stripBy, stripBy, List.dropWhile_append]
  split
  · next hempty =>
    rw [List.isEmpty_iff.mp hempty, List.dropWhile_cons_of_pos hc, List.dropWhile_nil]
  · rw [hdrop]

theorem not_isBlank_of_head?_trimStart (cs : List Char) :
    ∀ c ∈ (trimStart cs).head?, isBlank c = false := by
  intro c hc
  have hnot := List.head?_dropWhile_not isBlank cs
  rw [← trimStart, Option.mem_def.mp hc] at hnot
  exact hnot

theorem head?_trimStart_of_head?_trim (hc : c ∈ (trim cs).head?) : c ∈ (trimStart cs).head? := by
  obtain ⟨blanks, hsplit, -, -⟩ := exists_trimEnd_append (trimStart cs)
  rw [hsplit]
  exact List.mem_head?_append_of_mem_head? hc

theorem not_isBlank_of_head?_trim (cs : List Char) : ∀ c ∈ (trim cs).head?, isBlank c = false :=
  fun c hc ↦ not_isBlank_of_head?_trimStart cs c (head?_trimStart_of_head?_trim hc)

theorem not_isBlank_of_getLast?_trim (cs : List Char) :
    ∀ c ∈ (trim cs).getLast?, isBlank c = false :=
  let ⟨_, _, _, h⟩ := exists_trimEnd_append (trimStart cs)
  h

theorem mem_of_mem_trim (h : c ∈ trim cs) : c ∈ cs := by
  obtain ⟨blanks, hsplit, -, -⟩ := exists_trimEnd_append (trimStart cs)
  have hstart : c ∈ trimStart cs := by
    rw [hsplit]
    exact List.mem_append_left blanks h
  exact (List.dropWhile_sublist isBlank).mem hstart

theorem trim_eq_self (hhead : ∀ c ∈ cs.head?, isBlank c = false)
    (hlast : ∀ c ∈ cs.getLast?, isBlank c = false) :
    trim cs = cs := by
  have hstart : trimStart cs = cs := by
    cases cs with
    | nil => rfl
    | cons c rest => exact trimStart_cons (hhead c rfl) rest
  have htrim : trim cs = trimEnd (trimStart cs) := rfl
  rw [htrim, hstart, trimEnd_eq_self hlast]

theorem trim_trim (cs : List Char) : trim (trim cs) = trim cs :=
  trim_eq_self (not_isBlank_of_head?_trim cs) (not_isBlank_of_getLast?_trim cs)

theorem trim_eq_nil_iff : trim cs = [] ↔ ∀ c ∈ cs, isBlank c = true := by
  constructor
  · intro h
    obtain ⟨blanks, hsplit, hblanks, -⟩ := exists_trimEnd_append (trimStart cs)
    have hall : trimStart cs = blanks := hsplit.trans (congrArg (· ++ blanks) h)
    cases hstart : trimStart cs with
    | nil => exact List.dropWhile_eq_nil_iff.mp hstart
    | cons c more =>
      have hc := not_isBlank_of_head?_trimStart cs c (by rw [hstart]; rfl)
      have hblank := hblanks c (by rw [← hall, hstart]; exact List.mem_cons_self)
      exact absurd (hc.symm.trans hblank) (by decide)
  · intro h
    exact congrArg trimEnd (trimStart_of_blank h)

theorem trim_trim_append {c : Char} (hc : isBlank c = false) (front rest : List Char) :
    trim (trim (front ++ [c]) ++ rest) = trim (front ++ [c] ++ rest) := by
  have htrim : trim (front ++ [c]) = trimStart (front ++ [c]) := by
    have hcut : trim (front ++ [c]) = trimEnd (trimStart (front ++ [c])) := rfl
    rw [hcut, trimStart_append_cons front hc, trimEnd_concat _ hc]
  rw [htrim]
  exact congrArg trimEnd (trimStart_trimStart_append _ rest)

end MissionIndex.Text
