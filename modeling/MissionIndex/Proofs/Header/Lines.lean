import MissionIndex.Header.Reading
import MissionIndex.Proofs.Text.Returns

/-!
# Lines of a header comment

What a header comment says depends on its lines alone, and of each line on what is left without its
gutter and without blanks at its end. So it does not matter how the lines are ended, or whether they
have a gutter (`gutter_invisible`).
-/

namespace MissionIndex.Header

open Text

variable {line : List Char}

/-! ## Clean lines -/

def cleanLine (line : List Char) : List Char := trimEnd (dropGutter line)

/-- A text that can be put on a line of its own. -/
def FitsLine (line : List Char) : Prop := '\n' ∉ line ∧ '\r' ∉ line

instance (line : List Char) : Decidable (FitsLine line) := inferInstanceAs (Decidable (_ ∧ _))

theorem cleanLines_join {ending : List Char} (hending : IsLineEnd ending) {rows : List (List Char)}
    (hne : rows ≠ []) (hrows : ∀ line ∈ rows, FitsLine line) :
    cleanLines (join ending rows) = rows.map cleanLine := by
  have hlines : lines (join ['\n'] rows) = rows := Path.splitAt_join hne fun line hline ↦
    (hrows line hline).1
  rw [cleanLines, unifyNewlines_join hending fun line hline ↦ (hrows line hline).2, hlines]
  rfl

/-! ## Gutters -/

/-- What most comments have in front of each line. -/
def gutter : List Char := [' ', '*', ' ']

theorem dropGutter_of_head (h : (trimStart line).head? ≠ some '*') : dropGutter line = line := by
  have hstars : (trimStart line).takeWhile (· == '*') = [] := by
    cases hrest : trimStart line with
    | nil => rfl
    | cons c rest =>
      rw [hrest, List.head?_cons] at h
      exact List.takeWhile_cons_of_neg fun hc ↦ h (congrArg some (beq_iff_eq.mp hc))
  rw [dropGutter, hstars]

theorem dropGutter_gutter (line : List Char) : dropGutter (gutter ++ line) = line := rfl

theorem FitsLine.gutter_append (h : FitsLine line) : FitsLine (gutter ++ line) :=
  ⟨by simpa [gutter] using h.1, by simpa [gutter] using h.2⟩

theorem readComment_of_cleanLines {first second : List Char}
    (h : cleanLines first = cleanLines second) : readComment first = readComment second :=
  by rw [readComment, readComment, h]

/-- **Gutters are invisible.** Lines that start with no asterisk are read in the same way with and
without a gutter, whether they end in LF or in CR LF. -/
theorem gutter_invisible {rows : List (List Char)}
    (h : ∀ line ∈ rows, FitsLine line ∧ (trimStart line).head? ≠ some '*') {ending : List Char}
    (hending : IsLineEnd ending) :
    readComment (join ending rows) = readComment (join ['\n'] rows) ∧
      readComment (join ending (rows.map (gutter ++ ·))) = readComment (join ['\n'] rows) := by
  by_cases hne : rows = []
  · rw [hne]
    exact ⟨rfl, rfl⟩
  · have hrows : ∀ line ∈ rows, FitsLine line := fun line hline ↦ (h line hline).1
    have hplain : cleanLines (join ['\n'] rows) = rows.map cleanLine :=
      cleanLines_join (.inl rfl) hne hrows
    have hguttered : ∀ line ∈ rows.map (gutter ++ ·), FitsLine line :=
      List.forall_mem_map.mpr fun line hline ↦ (hrows line hline).gutter_append
    have hclean : (rows.map (gutter ++ ·)).map cleanLine = rows.map cleanLine := by
      rw [List.map_map]
      refine List.map_congr_left fun line hline ↦ congrArg trimEnd ?_
      rw [dropGutter_gutter, dropGutter_of_head (h line hline).2]
    constructor
    · refine readComment_of_cleanLines ?_
      rw [cleanLines_join hending hne hrows, hplain]
    · refine readComment_of_cleanLines ?_
      rw [cleanLines_join hending (fun he ↦ hne (List.map_eq_nil_iff.mp he)) hguttered,
        hclean, hplain]

/-- Lines that start with a slash, a tab and nothing at all. -/
theorem gutter_invisible_indented :
    let rows := ["/ Description: Heals".toList, [], "\t_unit: OBJECT - the unit".toList,
      "Returns: BOOL".toList]
    (∀ line ∈ rows, FitsLine line ∧ (trimStart line).head? ≠ some '*') ∧ IsLineEnd ['\r', '\n'] ∧
      readComment (join ['\r', '\n'] rows) = readComment (join ['\n'] rows) ∧
      readComment (join ['\r', '\n'] (rows.map (gutter ++ ·)))
        = readComment (join ['\n'] rows) := by
  intro rows
  have hrows : ∀ line ∈ rows, FitsLine line ∧ (trimStart line).head? ≠ some '*' := by decide
  exact ⟨hrows, .inr rfl, gutter_invisible hrows (.inr rfl)⟩

end MissionIndex.Header
