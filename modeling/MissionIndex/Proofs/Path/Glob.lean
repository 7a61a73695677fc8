import MissionIndex.Path.Glob

/-!
# What globs stand for

A character that means nothing else in a glob stands for itself, and a row of stars for any text. So
the parts of a glob cut the texts that it stands for: in front of a row of such characters the text
has the same row, and a star takes any part of it. Every slash of a glob is a slash of the text, as
a star may take slashes but need not.
-/

namespace MissionIndex.Path

/-- A character that stands for itself in a glob. -/
def IsPlain (c : Char) : Prop := c ≠ '*' ∧ c ≠ '?' ∧ c ≠ '['

instance : DecidablePred IsPlain :=
    fun c ↦ inferInstanceAs (Decidable (c ≠ '*' ∧ c ≠ '?' ∧ c ≠ '['))

/-! ## Parts -/

theorem globParts_cons_of_isPlain {c : Char} (h : IsPlain c) (rest : List Char) :
    globParts (c :: rest) = .char c :: globParts rest := by
  obtain ⟨hstar, hquestion, hbracket⟩ := h
  rw [globParts, if_neg hbracket]
  · exact hstar
  · exact hquestion

theorem globParts_append {cs : List Char} (h : ∀ c ∈ cs, IsPlain c) (rest : List Char) :
    globParts (cs ++ rest) = cs.map .char ++ globParts rest := by
  induction cs with
  | nil => rfl
  | cons c cs ih =>
    obtain ⟨hc, hcs⟩ := List.forall_mem_cons.mp h
    rw [List.cons_append, globParts_cons_of_isPlain hc, ih hcs, List.map_cons, List.cons_append]

theorem globParts_star (rest : List Char) :
    globParts ('*' :: rest) = .anyText :: globParts (rest.dropWhile (· == '*')) := by
  rw [globParts]

/-! ## Matching -/

namespace GlobPart

theorem admits_char {c d : Char} : (char c).admits d = true ↔ d = c := by
  have hone : (char c).admits d = (decide (c ≤ d) && decide (d ≤ c)) := by
    simp [char, admits]
  rw [hone, Bool.and_eq_true, decide_eq_true_eq, decide_eq_true_eq]
  constructor
  · rintro ⟨hfirst, hlast⟩
    exact Char.le_antisymm hlast hfirst
  · rintro rfl
    exact ⟨Char.le_refl d, Char.le_refl d⟩

theorem matchAll_char_cons {c : Char} {parts : List GlobPart} {cs : List Char} :
    matchAll (char c :: parts) cs = true ↔ ∃ rest, cs = c :: rest ∧ matchAll parts rest = true := by
  cases cs with
  | nil => simp [matchAll, char]
  | cons d cs =>
    have hstep : matchAll (char c :: parts) (d :: cs) = ((char c).admits d && matchAll parts cs) :=
      rfl
    rw [hstep, Bool.and_eq_true, admits_char]
    constructor
    · rintro ⟨rfl, h⟩
      exact ⟨cs, rfl, h⟩
    · rintro ⟨rest, he, h⟩
      obtain ⟨rfl, rfl⟩ := List.cons.inj he
      exact ⟨rfl, h⟩

theorem matchAll_append {cs : List Char} {parts : List GlobPart} {text : List Char} :
    matchAll (cs.map char ++ parts) text = true ↔ ∃ rest, text = cs ++ rest ∧
    matchAll parts rest = true := by
  induction cs generalizing text with
  | nil => simp
  | cons c cs ih =>
    rw [List.map_cons, List.cons_append, matchAll_char_cons]
    constructor
    · rintro ⟨tail, rfl, h⟩
      obtain ⟨rest, rfl, hrest⟩ := ih.mp h
      exact ⟨rest, rfl, hrest⟩
    · rintro ⟨rest, rfl, h⟩
      exact ⟨cs ++ rest, rfl, ih.mpr ⟨rest, rfl, h⟩⟩

theorem mem_suffixes {text rest : List Char} : rest ∈ suffixes text ↔ rest <:+ text := by
  induction text with
  | nil => simp [suffixes]
  | cons c text ih => rw [suffixes, List.mem_cons, ih, List.suffix_cons_iff]

theorem matchAll_anyText {parts : List GlobPart} {text : List Char} :
    matchAll (anyText :: parts) text = true ↔ ∃ skipped rest, text = skipped ++ rest ∧
    matchAll parts rest = true := by
  rw [matchAll, List.any_eq_true]
  constructor
  · rintro ⟨rest, hrest, h⟩
    obtain ⟨skipped, rfl⟩ := mem_suffixes.mp hrest
    exact ⟨skipped, rest, rfl, h⟩
  · rintro ⟨skipped, rest, rfl, h⟩
    exact ⟨rest, mem_suffixes.mpr ⟨skipped, rfl⟩, h⟩

/-- Every slash of a glob is a slash of the texts that it stands for. -/
theorem count_slash_le {parts : List GlobPart} {text : List Char} (h : matchAll parts text = true) :
    parts.count (char '/') ≤ text.count '/' := by
  induction parts generalizing text with
  | nil => exact Nat.zero_le _
  | cons part parts ih =>
    by_cases hslash : part = char '/'
    · rw [hslash] at h ⊢
      obtain ⟨rest, rfl, hrest⟩ := matchAll_char_cons.mp h
      rw [List.count_cons_self, List.count_cons_self]
      exact Nat.succ_le_succ (ih hrest)
    · rw [List.count_cons_of_ne hslash]
      -- Any other part takes some of the text, and the slashes stay in the rest.
      have hrest : ∃ skipped rest, text = skipped ++ rest ∧ matchAll parts rest = true := by
        cases part with
        | anyText => exact matchAll_anyText.mp h
        | anyChar =>
          cases text with
          | nil => cases h
          | cons c rest => exact ⟨[c], rest, rfl, (Bool.and_eq_true_iff.mp h).2⟩
        | oneOf negated members =>
          cases text with
          | nil => cases h
          | cons c rest => exact ⟨[c], rest, rfl, (Bool.and_eq_true_iff.mp h).2⟩
      obtain ⟨skipped, rest, rfl, hrest⟩ := hrest
      rw [List.count_append]
      exact Nat.le_trans (ih hrest) (Nat.le_add_left _ _)

end GlobPart

end MissionIndex.Path
